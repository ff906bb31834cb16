import JsonEmbed.Query.Fragment.Builtin
import JsonEmbed.Query.Fragment.Term

/-!
# Evaluating queries

A term turns an input into a stream of values. Where several terms are combined, every choice of
their values is, and the term on the left varies slowest. The recursion is on the term alone: a
query has no loops but those over values that are there already, and ranges.

Evaluation happens at a `Site`. A part of a term is evaluated below the site of the term, at a place
of its own for each part, and for each value if it is evaluated for several; what is built on the
way carries the site where it was built.
-/

namespace JsonEmbed

namespace Query

/-- The values of variables, innermost first. -/
abbrev Environment := List (String × Value)

/-- A step whose indices are known. -/
inductive Access where
  | index (place : Value)
  | contents
  | slice (lower upper : Option Value)
  deriving Inhabited

namespace Access

/-- What an access gives on a value. -/
def run (site : Site) (v : Value) : Access → Results Value Value
  | index i => .ofExcept (v.index i)
  | contents => Builtin.iterate v
  | slice l u => .ofExcept (v.slice site l u)

/-- What a sequence of accesses gives. An optional one passes over its errors. -/
def runAll : List (Access × Bool) → Closure
  | [], _, v => .pure v
  | (a, optional) :: rest, site, v =>
    let parts := a.run site v
    (if optional then parts.handle fun _ ↦ .done else parts).numbered.bind fun (i, x) ↦
      runAll rest (i :: site) x

end Access

namespace Term

open Results

/-- An object with one member; the key must be a string. -/
def singleton (site : Site) (key value : Value) : Value.Computed :=
  match key with
  | .string k => .ok (.object (some site) [(k, value)])
  | k => .error (k.wrongType "string")

/-- The values of a term for an input. -/
def eval (env : Environment) : Term → Closure
  | identity, _, v => pure v
  | constant c, _, _ => pure c
  | text pieces last, site, v =>
    (evalPieces env pieces (pure "") site v).map fun s ↦ .string (s ++ last)
  | collect t, site, v => Builtin.collect site (t.eval env (0 :: site) v)
  | object entries, site, v => evalEntries env entries (pure (.object none [])) site v
  | negate t, site, v => (t.eval env (0 :: site) v).bind fun a ↦ ofExcept a.negate
  | pipe t u, site, v =>
    (t.eval env (0 :: site) v).numbered.bind fun (i, x) ↦ u.eval env (i :: 1 :: site) x
  | bind t name u, site, v =>
    (t.eval env (0 :: site) v).numbered.bind fun (i, x) ↦
      u.eval ((name, x) :: env) (i :: 1 :: site) v
  | comma t u, site, v =>
    (t.eval env (0 :: site) v).append fun _ ↦ u.eval env (1 :: site) v
  | arithmetic op t u, site, v =>
    product (fun i a b ↦ Value.calculate (i :: 2 :: site) op a b)
      (t.eval env (0 :: site) v) fun i ↦ u.eval env (i :: 1 :: site) v
  | comparison op t u, site, v =>
    product (fun _ a b ↦ .ok (.boolean (Value.compares op a b)))
      (t.eval env (0 :: site) v) fun i ↦ u.eval env (i :: 1 :: site) v
  | conjunction t u, site, v =>
    (t.eval env (0 :: site) v).numbered.bind fun (i, a) ↦
      if a.isTrue then (u.eval env (i :: 1 :: site) v).map fun b ↦ .boolean b.isTrue
      else pure (.boolean false)
  | disjunction t u, site, v =>
    (t.eval env (0 :: site) v).numbered.bind fun (i, a) ↦
      if a.isTrue then pure (.boolean true)
      else (u.eval env (i :: 1 :: site) v).map fun b ↦ .boolean b.isTrue
  | alternative t u, site, v =>
    ((t.eval env (0 :: site) v).filter Value.isTrue).orElse fun _ ↦ u.eval env (1 :: site) v
  | conditional c t u, site, v =>
    (c.eval env (0 :: site) v).numbered.bind fun (i, a) ↦
      if a.isTrue then t.eval env (i :: 1 :: site) v else u.eval env (i :: 2 :: site) v
  | attempt t u, site, v => (t.eval env (0 :: site) v).handle (u.eval env (1 :: site))
  | reduce t name [start, update], site, v =>
    (start.eval env (0 :: site) v).numbered.bind fun (i, state) ↦
      (fold
        (fun (turn, state) x ↦
          (update.eval ((name, x) :: env) (0 :: turn) state).numbered.map fun (k, next) ↦
            (k :: 1 :: turn, next))
        (t.eval env (1 :: site) v) (i :: 2 :: site, state)).map Prod.snd
  | reduce _ _ _, _, _ => done
  | call name arguments, site, v =>
    match Builtin.find? name arguments.length with
    | some b => b.run (evalAll env arguments) site v
    | none => done
  | reference name, _, _ =>
    match env.lookup name with
    | some x => pure x
    | none => done
  | path t steps, site, v =>
    (t.eval env (0 :: site) v).numbered.bind fun (i, x) ↦
      (evalSteps env steps (i :: 1 :: site) v).numbered.bind fun (j, accesses) ↦
        Access.runAll accesses (j :: i :: 2 :: site) x
where
  /-- The texts up to and including the last term inside a string, after the given ones. -/
  evalPieces (env : Environment) :
      List (String × Term) → Results Value String → Site → Value → Results Value String
    | [], before, _, _ => before
    | (piece, t) :: rest, before, site, v =>
      evalPieces env rest
        (product (fun _ s a ↦ .ok (s ++ piece ++ Value.toText a)) before fun i ↦
          t.eval env (i :: 0 :: site) v)
        (1 :: site) v
  /-- The objects that an entry alone stands for. -/
  evalEntry (env : Environment) : Term × Option Term → Closure
    | (key, none), site, v =>
      product (fun i k x ↦ singleton (i :: 2 :: site) k x) (key.eval env (0 :: site) v) fun i ↦
        (key.eval env (i :: 1 :: site) v).bind fun k ↦ ofExcept (v.index k)
    | (key, some value), site, v =>
      product (fun i k x ↦ singleton (i :: 2 :: site) k x) (key.eval env (0 :: site) v) fun i ↦
        value.eval env (i :: 1 :: site) v
  /-- The sums of the given objects and those of all entries. -/
  evalEntries (env : Environment) :
      List (Term × Option Term) → Results Value Value → Closure
    | [], total, _, _ => total
    | entry :: rest, total, site, v =>
      evalEntries env rest
        (product (fun i a b ↦ Value.calculate (i :: 0 :: site) .add a b) total fun i ↦
          evalEntry env entry (i :: 1 :: site) v)
        (2 :: site) v
  /-- Arguments as functions. -/
  evalAll (env : Environment) : List Term → List Closure
    | [] => []
    | t :: rest => t.eval env :: evalAll env rest
  /-- The accesses that a step may stand for. -/
  evalStep (env : Environment) : Step Term → Site → Value → Results Value Access
    | .index t, site, v => (t.eval env (0 :: site) v).map .index
    | .contents, _, _ => pure .contents
    | .sliceFrom t, site, v => (t.eval env (0 :: site) v).map fun l ↦ .slice (some l) none
    | .sliceTo t, site, v => (t.eval env (0 :: site) v).map fun u ↦ .slice none (some u)
    | .slice t u, site, v =>
      product (fun _ l u ↦ .ok (.slice (some l) (some u)))
        (t.eval env (0 :: site) v) fun i ↦ u.eval env (i :: 1 :: site) v
  /-- The sequences of accesses that steps may stand for. -/
  evalSteps (env : Environment) : List (Step Term × Bool) → Site → Value →
      Results Value (List (Access × Bool))
    | [], _, _ => pure []
    | (s, optional) :: rest, site, v =>
      product (fun _ a accesses ↦ .ok ((a, optional) :: accesses))
        (evalStep env s (0 :: site) v) fun i ↦ evalSteps env rest (i :: 1 :: site) v

end Term

end Query

end JsonEmbed
