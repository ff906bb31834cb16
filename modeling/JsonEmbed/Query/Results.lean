/-!
# Result streams

A query gives any number of values and may fail after some of them. A stream is a value and, behind
a function, the rest; so a consumer that stops early leaves the rest unasked.
-/

namespace JsonEmbed

/-- The values of a query in order, up to the end or to an error. -/
inductive Results (ε α : Type) where
  | done
  | fail (error : ε)
  | yield (value : α) (rest : Unit → Results ε α)

namespace Results

variable {ε δ α β γ : Type}

/-- The stream of one value. -/
def pure (a : α) : Results ε α :=
  yield a fun _ ↦ done

/-- One value, or the error there is instead. -/
def ofExcept : Except ε α → Results ε α
  | .ok a => pure a
  | .error e => fail e

/-- The values of a list. -/
def ofList : List α → Results ε α
  | [] => done
  | a :: as => yield a fun _ ↦ ofList as

/-- One stream after another. -/
def append : Results ε α → (Unit → Results ε α) → Results ε α
  | done, next => next ()
  | fail e, _ => fail e
  | yield a rest, next => yield a fun _ ↦ append (rest ()) next

/-- The streams of all values, one after another. -/
def bind : Results ε α → (α → Results ε β) → Results ε β
  | done, _ => done
  | fail e, _ => fail e
  | yield a rest, f => append (f a) fun _ ↦ bind (rest ()) f

/-- The stream with a function applied to each value. -/
def map (f : α → β) : Results ε α → Results ε β
  | done => done
  | fail e => fail e
  | yield a rest => yield (f a) fun _ ↦ map f (rest ())

/-- The stream with a function applied to its error. -/
def mapError (f : ε → δ) : Results ε α → Results δ α
  | done => done
  | fail e => fail (f e)
  | yield a rest => yield a fun _ ↦ mapError f (rest ())

/-- Each value with its place in the stream; the places count up from the given one. -/
def numberedFrom (place : Nat) : Results ε α → Results ε (Nat × α)
  | done => done
  | fail e => fail e
  | yield a rest => yield (place, a) fun _ ↦ numberedFrom (place + 1) (rest ())

/-- Each value with its place in the stream. -/
def numbered (r : Results ε α) : Results ε (Nat × α) :=
  r.numberedFrom 0

/-- Each value of a stream with each of a second one, which starts anew for every place of the
first, counted from the given place. An error of the first stream counts only if there is something
to put beside it: where the second stream is empty, nothing comes of it. -/
def pairsFrom (place : Nat) : Results ε α → (Nat → Results ε β) → Results ε (α × β)
  | done, _ => done
  | fail e, second =>
    match second place with
    | done => done
    | _ => fail e
  | yield a rest, second =>
    append ((second place).map fun b ↦ (a, b)) fun _ ↦ pairsFrom (place + 1) (rest ()) second

/-- The results of a function on each value of a stream and each of a second one. The function also
gets the place of its result among all of them. -/
def product (f : Nat → α → β → Except ε γ) (first : Results ε α) (second : Nat → Results ε β) :
    Results ε γ :=
  (pairsFrom 0 first second).numbered.bind fun (place, a, b) ↦ ofExcept (f place a b)

/-- The values that satisfy a test. -/
def filter (p : α → Bool) : Results ε α → Results ε α
  | done => done
  | fail e => fail e
  | yield a rest => if p a then yield a fun _ ↦ filter p (rest ()) else filter p (rest ())

/-- The values up to an error, and then those that the handler gives for it. -/
def handle : Results ε α → (ε → Results ε α) → Results ε α
  | done, _ => done
  | fail e, f => f e
  | yield a rest, f => yield a fun _ ↦ handle (rest ()) f

/-- The first value alone. -/
def first : Results ε α → Results ε α
  | yield a _ => pure a
  | rest => rest

/-- The first stream, unless it has nothing in it. -/
def orElse : Results ε α → (Unit → Results ε α) → Results ε α
  | done, other => other ()
  | rest, _ => rest

/-- Threads a state through the values of a stream; a step may give several next states, each of
which goes on by itself. The usual single next state goes on in a loop. -/
def fold (step : β → α → Results ε β) : Results ε α → β → Results ε β
  | done, state => pure state
  | fail e, _ => fail e
  | yield a rest, state =>
    match step state a with
    | done => done
    | fail e => fail e
    | yield next others =>
      match others () with
      | done => fold step (rest ()) next
      | others =>
        append (fold step (rest ()) next) fun _ ↦ bind others (fold step (rest ()))

/-- All values, if there is no error. -/
def toList : Results ε α → Except ε (List α)
  | done => .ok []
  | fail e => .error e
  | yield a rest =>
    match toList (rest ()) with
    | .ok as => .ok (a :: as)
    | .error e => .error e

end Results

end JsonEmbed
