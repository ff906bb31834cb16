import JsonEmbed.Query.Fragment.Arithmetic
import JsonEmbed.Query.Results

/-!
# Built-in functions

The functions that queries of the fragment may call. A function gets its arguments as functions from
an input to results, so it decides itself on what they are run and how many of their values it
takes. It also decides on the sites where they are run: below its own, and all different.
-/

namespace JsonEmbed

namespace Query

/-- What a term does at a site to an input. -/
abbrev Closure := Site → Value → Results Value Value

/-- A built-in function: its name, its number of arguments, and what it does. -/
structure Builtin where
  name : String
  arity : Nat
  run : List Closure → Closure

namespace Builtin

open Value Results

/-- A function without arguments that computes one value. -/
def ofValue (name : String) (f : Value → Computed) : Builtin :=
  ⟨name, 0, fun _ _ v ↦ ofExcept (f v)⟩

/-- A function without arguments that computes a value from the elements of an array. -/
def ofElements (name : String) (f : Site → List Value → Value) : Builtin :=
  ⟨name, 0, fun _ site v ↦ ofExcept (v.elements.map (f site))⟩

/-- A function without arguments that computes an array. -/
def ofParts (name : String) (f : Value → Except Value (List Value)) : Builtin :=
  ⟨name, 0, fun _ site v ↦ ofExcept ((f v).map (array (some site)))⟩

/-- A function with one argument. -/
def unary (name : String) (f : Closure → Closure) : Builtin :=
  ⟨name, 1, fun arguments ↦
    match arguments with
    | [a] => f a
    | _ => fun _ _ ↦ done⟩

/-- All parts of a value. -/
def iterate (v : Value) : Results Value Value :=
  match v.contents with
  | .ok vs => ofList vs
  | .error e => fail e

/-- The array of all values of a stream. -/
def collect (site : Site) (r : Results Value Value) : Results Value Value :=
  match r.toList with
  | .ok vs => pure (array (some site) vs)
  | .error e => fail e

/-- The sum of all values of a stream; null if there are none. -/
def sum (site : Site) (r : Results Value Value) : Results Value Value :=
  fold (fun total (place, v) ↦ ofExcept (calculate (place :: site) .add total v)) r.numbered null

/-- Raises the first value of a term, or gives the input if there is none. -/
def raise (f : Closure) : Closure := fun site v ↦
  match f site v with
  | done => pure v
  | fail e => fail e
  | yield e _ => fail e

/-- The values from a start in equal steps as long as the target is not reached, in the direction of
the step. The bound on their number is out of reach. -/
def progression (site : Site) (target step : Value) : Nat → Value → Results Value Value
  | 0, _ => done
  | bound + 1, v =>
    let continues : Bool :=
      match order step (integer 0) with
      | .gt => order v target == .lt
      | .lt => order v target == .gt
      | .eq => !v.equal target
    if continues then
      yield v fun _ ↦
        match calculate (bound :: site) .add v step with
        | .ok next => progression site target step bound next
        | .error e => fail e
    else done

/-- The largest number of values in a progression. -/
def maxProgression : Nat := Nat.pow 2 62

/-- The progressions between all values of two terms, in steps of all values of a third. -/
def range (lower upper step : Closure) : Closure := fun site v ↦
  (lower (0 :: site) v).numbered.bind fun (i, l) ↦
    (upper (i :: 1 :: site) v).numbered.bind fun (j, u) ↦
      (step (j :: i :: 2 :: site) v).numbered.bind fun (k, s) ↦
        progression (k :: j :: i :: 3 :: site) u s maxProgression l

/-- The term that gives one integer. -/
def always (i : Int) : Closure := fun _ _ ↦ pure (integer i)

/-- The entries of an object or array. -/
def entries (site : Site) (v : Value) : Computed := do
  let keys ← v.keys
  let values ← v.contents
  return array (some site)
    ((keys.zip values).zipIdx.map fun ((k, x), place) ↦ entry (place :: site) k x)

/-- All functions of the fragment. -/
def all : List Builtin :=
  [⟨"empty", 0, fun _ _ _ ↦ done⟩,
   ⟨"error", 0, fun _ _ v ↦ fail v⟩,
   unary "error" raise,
   ofValue "null" fun _ ↦ .ok null,
   ofValue "true" fun _ ↦ .ok (boolean true),
   ofValue "false" fun _ ↦ .ok (boolean false),
   ofValue "not" fun v ↦ .ok (boolean !v.isTrue),
   ofValue "length" length,
   ofParts "keys" fun v ↦ v.keys.map sort,
   ofParts "keys_unsorted" keys,
   ⟨"add", 0, fun _ site v ↦ sum site (iterate v)⟩,
   unary "add" fun f site v ↦ sum (1 :: site) (f (0 :: site) v),
   unary "map" fun f site v ↦
     collect site ((iterate v).numbered.bind fun (place, x) ↦ f (place :: site) x),
   unary "select" fun f site v ↦
     (f (0 :: site) v).bind fun c ↦ if c.isTrue then pure v else done,
   ofElements "sort" fun site xs ↦ array (some site) (sort xs),
   ofElements "reverse" fun site xs ↦ array (some site) xs.reverse,
   ofElements "min" fun _ xs ↦ (least xs).getD null,
   ofElements "max" fun _ xs ↦ (greatest xs).getD null,
   ofValue "first" fun v ↦ v.index (integer 0),
   ofValue "last" fun v ↦ v.index (integer (-1)),
   unary "first" fun f site v ↦ (f (0 :: site) v).first,
   unary "range" fun f ↦ range (always 0) f (always 1),
   ⟨"range", 2, fun arguments ↦
     match arguments with
     | [f, g] => range f g (always 1)
     | _ => fun _ _ ↦ done⟩,
   ⟨"range", 3, fun arguments ↦
     match arguments with
     | [f, g, h] => range f g h
     | _ => fun _ _ ↦ done⟩,
   ofValue "type" fun v ↦ .ok (string v.typeName),
   ofValue "tostring" fun v ↦ .ok (string v.toText),
   ofValue "tojson" fun v ↦ .ok (string v.text),
   ⟨"to_entries", 0, fun _ site v ↦ ofExcept (entries site v)⟩,
   unary "has" fun f site v ↦ (f (0 :: site) v).bind fun k ↦ ofExcept (v.has k)]

/-- The function with a given name and number of arguments. -/
def find? (name : String) (arity : Nat) : Option Builtin :=
  all.find? fun b ↦ b.name == name && b.arity == arity

end Builtin

end Query

end JsonEmbed
