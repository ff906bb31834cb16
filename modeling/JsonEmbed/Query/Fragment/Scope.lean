import JsonEmbed.Query.Fragment.Builtin
import JsonEmbed.Query.Interpreter
import JsonEmbed.Query.Fragment.Term

/-!
# Names in queries

A query of the fragment may call built-in functions only, and use a variable only where it is bound.
`Term.unknown` lists every use of anything else. Mostly it follows the text, but what depends on
something comes after it: a call after its arguments, a condition and its branch after the branch
taken otherwise, the source of a binding after the term in which it is bound.
-/

namespace JsonEmbed

namespace Query

namespace Unknown

/-- A call with a number of arguments. -/
def function (name : String) (arity : Nat) : Unknown :=
  ⟨name, "Filter(" ++ Nat.repr arity ++ ")"⟩

/-- A variable, with its dollar sign. -/
def reference (name : String) : Unknown :=
  ⟨name, "Var"⟩

end Unknown

namespace Term

/-- The unknown names of a term in which the given variables are bound. -/
def unknown (bound : List String) : Term → List Unknown
  | identity => []
  | constant _ => []
  | text pieces _ => unknownOfPieces bound pieces
  | collect t => t.unknown bound
  | object entries => unknownOfEntries bound entries
  | negate t => t.unknown bound
  | pipe t u => t.unknown bound ++ u.unknown bound
  | bind t name u => u.unknown (name :: bound) ++ t.unknown bound
  | comma t u => t.unknown bound ++ u.unknown bound
  | arithmetic _ t u => t.unknown bound ++ u.unknown bound
  | comparison _ t u => t.unknown bound ++ u.unknown bound
  | conjunction t u => t.unknown bound ++ u.unknown bound
  | disjunction t u => t.unknown bound ++ u.unknown bound
  | alternative t u => t.unknown bound ++ u.unknown bound
  | conditional t u v => v.unknown bound ++ t.unknown bound ++ u.unknown bound
  | attempt t u => t.unknown bound ++ u.unknown bound
  | reduce t name [u, v] => t.unknown bound ++ u.unknown bound ++ v.unknown (name :: bound)
  | reduce t name (u :: v :: _ :: rest) =>
    t.unknown bound ++ u.unknown bound ++ v.unknown (name :: bound) ++
      [.function "reduce" (rest.length + 3)]
  | reduce _ _ arguments => [.function "reduce" arguments.length]
  | call name arguments =>
    unknownOfAll bound arguments ++
      if (Builtin.find? name arguments.length).isSome then [] else [.function name arguments.length]
  | reference name => if name ∈ bound then [] else [.reference name]
  | path t steps => t.unknown bound ++ unknownOfSteps bound steps
where
  /-- The unknown names of terms inside a string. -/
  unknownOfPieces (bound : List String) : List (String × Term) → List Unknown
    | [] => []
    | (_, t) :: rest => t.unknown bound ++ unknownOfPieces bound rest
  /-- The unknown names of the entries of an object. -/
  unknownOfEntries (bound : List String) : List (Term × Option Term) → List Unknown
    | [] => []
    | (k, none) :: rest => k.unknown bound ++ unknownOfEntries bound rest
    | (k, some v) :: rest => k.unknown bound ++ v.unknown bound ++ unknownOfEntries bound rest
  /-- The unknown names of arguments. -/
  unknownOfAll (bound : List String) : List Term → List Unknown
    | [] => []
    | t :: rest => t.unknown bound ++ unknownOfAll bound rest
  /-- The unknown names of a step. -/
  unknownOfStep (bound : List String) : Step Term → List Unknown
    | .index t => t.unknown bound
    | .contents => []
    | .sliceFrom t => t.unknown bound
    | .sliceTo t => t.unknown bound
    | .slice t u => t.unknown bound ++ u.unknown bound
  /-- The unknown names of the steps of a path. -/
  unknownOfSteps (bound : List String) : List (Step Term × Bool) → List Unknown
    | [] => []
    | (s, _) :: rest => unknownOfStep bound s ++ unknownOfSteps bound rest

end Term

end Query

end JsonEmbed
