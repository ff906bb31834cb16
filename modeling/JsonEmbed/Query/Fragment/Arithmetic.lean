import JsonEmbed.Query.Fragment.Value
import JsonEmbed.Json.Basic

/-!
# Query arithmetic

The operators and the access to parts of a value. Integer arithmetic is exact and becomes binary64
arithmetic when a result does not fit; division always is. Addition joins strings, arrays and
objects, and null is neutral for it. An error is a value too: its text says what failed.

What makes an array or object is told the site it is made at; what takes a part of a value gives it
as it is.
-/

namespace JsonEmbed

namespace Query

/-- The arithmetic operators. -/
inductive ArithmeticOp where
  | add
  | subtract
  | multiply
  | divide
  | remainder
  deriving DecidableEq, Inhabited

/-- The comparison operators. -/
inductive ComparisonOp where
  | equal
  | notEqual
  | less
  | lessOrEqual
  | greater
  | greaterOrEqual
  deriving DecidableEq, Inhabited

/-- The spelling of an operator. -/
def ArithmeticOp.symbol : ArithmeticOp → String
  | add => "+"
  | subtract => "-"
  | multiply => "*"
  | divide => "/"
  | remainder => "%"

namespace Value

/-- A computed value, or the error that is raised instead. -/
abbrev Computed := Except Value Value

/-- The error of using a value as something that it is not. -/
def wrongType (v : Value) (expected : String) : Value :=
  string ("cannot use " ++ v.text ++ " as " ++ expected)

/-- The error of taking a part that a value of this type does not have. -/
def wrongIndex (v i : Value) : Value :=
  string ("cannot index " ++ v.text ++ " with " ++ i.text)

/-- The error of an operator that does not apply. -/
def wrongOperands (op : ArithmeticOp) (a b : Value) : Value :=
  string ("cannot calculate " ++ a.text ++ " " ++ op.symbol ++ " " ++ b.text)

/-- What can be iterated over. -/
def iterable : String := "iterable (array or object)"

/-- What can be sliced. -/
def sliceable : String := "rangeable (array or string)"

/-- An integer if it has 64 bits, and otherwise the result of the same operation on the operands as
binary64 numbers, which is not computed before. -/
def ofResult (exact : Int) (rounded : Unit → Extended) : Value :=
  if fits exact then integer exact else float (rounded ())

/-- Merges objects: values that are objects on both sides are merged in turn, as deep as the bound
says. The place of a member leads from the site of an object to the site of the object in it. -/
def mergeWithin : Nat → Site → List (String × Value) → List (String × Value) →
    List (String × Value)
  | 0, _, ms, _ => ms
  | bound + 1, site, ms, ns =>
    ns.zipIdx.foldl
      (fun known (member, place) ↦
        match known.lookup member.1, member.2 with
        | some (object _ old), object _ new =>
          let site := place :: site
          Json.put member.1 (object (some site) (mergeWithin bound site old new)) known
        | _, v => Json.put member.1 v known)
      ms

/-- The parts of a text between occurrences of a separator that is not empty. The `skip` says how
many characters still belong to the last occurrence. -/
def splitAt (separator : List Char) : Nat → List Char → List Char → List (List Char)
  | _, current, [] => [current.reverse]
  | skip + 1, current, _ :: cs => splitAt separator skip current cs
  | 0, current, c :: cs =>
    if separator.isPrefixOf (c :: cs) then
      current.reverse :: splitAt separator (separator.length - 1) [] cs
    else splitAt separator 0 (c :: current) cs

/-- Splits a text at a separator; an empty separator splits off every character. -/
def splitText (text separator : String) : List String :=
  if text.isEmpty then []
  else if separator.isEmpty then text.toList.map fun c ↦ String.ofList [c]
  else (splitAt separator.toList 0 [] text.toList).map String.ofList

/-- A text several times over. -/
def repeatText (text : String) (times : Nat) : String :=
  String.ofList (List.replicate times text.toList).flatten

/-- Arithmetic on binary64 numbers. -/
def calculateRounded (op : ArithmeticOp) (x y : Extended) : Extended :=
  match op with
  | .add => x.add y
  | .subtract => x.sub y
  | .multiply => x.mul y
  | .divide => x.div y
  | .remainder => x.rem y

/-- Arithmetic on numbers. A remainder by the integer zero is none. -/
def calculateNumbers (op : ArithmeticOp) : Int ⊕ Extended → Int ⊕ Extended → Option Value
  | .inl i, .inl j =>
    let rounded (_ : Unit) : Extended := calculateRounded op (.ofInt i) (.ofInt j)
    match op with
    | .add => some (ofResult (i + j) rounded)
    | .subtract => some (ofResult (i - j) rounded)
    | .multiply => some (ofResult (i * j) rounded)
    | .divide => some (float (rounded ()))
    | .remainder => if j = 0 then none else some (integer (i.tmod j))
  | a, b => some (float (calculateRounded op (toExtended a) (toExtended b)))

/-- A value as the operators use it: a kept decimal is the binary64 number that it denotes. -/
def settled : Value → Value
  | decimal t => float (ofDecimal t)
  | v => v

/-- The result of an operator on two values of which neither is null in a sum. -/
def combine (site : Site) (op : ArithmeticOp) (a b : Value) : Computed :=
  match op, a, b with
  | .add, string s, string t => .ok (string (s ++ t))
  | .add, array _ xs, array _ ys => .ok (array (some site) (xs ++ ys))
  | .add, object _ ms, object _ ns =>
    .ok (object (some site) (ns.foldl (fun known m ↦ Json.put m.1 m.2 known) ms))
  | .subtract, array _ xs, array _ ys =>
    .ok (array (some site) (xs.filter fun x ↦ !ys.any fun y ↦ order x y == .eq))
  | .multiply, string s, integer i | .multiply, integer i, string s =>
    .ok (if 0 < i then string (repeatText s i.toNat) else null)
  | .multiply, object _ ms, object _ ns =>
    .ok (object (some site) (mergeWithin (max a.depth b.depth + 1) site ms ns))
  | .divide, string s, string t => .ok (array (some site) ((splitText s t).map string))
  | op, a, b =>
    match a.number?, b.number? with
    | some x, some y =>
      match calculateNumbers op x y with
      | some v => .ok v
      | none => .error (wrongOperands op a b)
    | _, _ => .error (wrongOperands op a b)

/-- The result of an operator. A sum with null is the other operand as it is. -/
def calculate (site : Site) (op : ArithmeticOp) (a b : Value) : Computed :=
  match op, a, b with
  | .add, null, b => .ok b
  | .add, a, null => .ok a
  | op, a, b => combine site op a.settled b.settled

/-- Whether a comparison holds. -/
def compares (op : ComparisonOp) (a b : Value) : Bool :=
  match op with
  | .equal => a.equal b
  | .notEqual => !a.equal b
  | .less => a.order b == .lt
  | .lessOrEqual => a.order b != .gt
  | .greater => a.order b == .gt
  | .greaterOrEqual => a.order b != .lt

/-- The integer of 64 bits with the same remainder modulo 2 ^ 64. -/
def wrapped (i : Int) : Value :=
  integer (i.bmod (Nat.pow 2 64))

/-- The negative of a number. The least integer is its own. -/
def negate (v : Value) : Computed :=
  match v.number? with
  | some (.inl i) => .ok (wrapped (-i))
  | some (.inr x) => .ok (float x.neg)
  | none => .error (wrongType v "number")

/-- The place that an index names in a list of a length; negative ones count from the end. -/
def place? (i : Int) (length : Nat) : Option Nat :=
  if 0 ≤ i then (if i < length then some i.toNat else none)
  else if 0 ≤ i + length then some (i + length).toNat
  else none

/-- The part of a value at an index. A place or key that is not there holds null. -/
def index (v i : Value) : Computed :=
  match v, i with
  | array _ xs, integer n => .ok (((place? n xs.length).bind (xs[·]?)).getD null)
  | object _ ms, string key => .ok ((ms.lookup key).getD null)
  | array _ _, _ | object _ _, _ => .error (wrongIndex v i)
  | _, _ => .error (wrongType v iterable)

/-- The place that a bound of a slice names; one that is not given names an end. -/
def bound (given : Option Value) (length ending : Nat) : Except Value Nat :=
  match given with
  | none => .ok ending
  | some (integer i) => .ok (min length (if 0 ≤ i then i.toNat else (i + length).toNat))
  | some v => .error (wrongType v "integer")

/-- The part of a list between two bounds. -/
def sliceList {α : Type} (xs : List α) (lower upper : Option Value) : Except Value (List α) := do
  let l ← bound lower xs.length 0
  let u ← bound upper xs.length xs.length
  return (xs.drop l).take (u - l)

/-- The part of an array or string between two bounds. -/
def slice (site : Site) (v : Value) (lower upper : Option Value) : Computed :=
  match v with
  | array _ xs => (sliceList xs lower upper).map (array (some site))
  | string s => (sliceList s.toList lower upper).map (string ∘ String.ofList)
  | v => .error (wrongType v sliceable)

/-- The values that an array or object holds. -/
def contents (v : Value) : Except Value (List Value) :=
  match v with
  | array _ xs => .ok xs
  | object _ ms => .ok (ms.map Prod.snd)
  | v => .error (wrongType v iterable)

/-- The keys of an object in its order, or the places of an array. -/
def keys (v : Value) : Except Value (List Value) :=
  match v with
  | array _ xs => .ok ((List.range xs.length).map fun i ↦ integer (Int.ofNat i))
  | object _ ms => .ok (ms.map (string ∘ Prod.fst))
  | v => .error (wrongType v iterable)

/-- The elements of an array. -/
def elements (v : Value) : Except Value (List Value) :=
  match v with
  | array _ xs => .ok xs
  | v => .error (wrongType v "array")

/-- The length of a string, array or object, the magnitude of a number, and zero for null. The
magnitude of the least integer has too many bits; it stays as it is. -/
def length (v : Value) : Computed :=
  match v with
  | null => .ok (integer 0)
  | boolean _ => .error (string (v.text ++ " has no length"))
  | integer i => .ok (wrapped i.natAbs)
  | float x => .ok (float x.abs)
  | decimal t => .ok (float (ofDecimal t).abs)
  | string s => .ok (integer s.length)
  | array _ xs => .ok (integer xs.length)
  | object _ ms => .ok (integer ms.length)

/-- Whether an array has a place or an object a key. -/
def has (v k : Value) : Computed :=
  match v, k with
  | array _ xs, integer i =>
    if 0 ≤ i then .ok (boolean (decide (i < xs.length))) else .error (wrongIndex v k)
  | object _ ms, string key => .ok (boolean (ms.lookup key).isSome)
  | _, _ => .error (wrongIndex v k)

/-- Values in their order. Equal ones stay as they were; of two that are both below each other, the
later one comes first. -/
def sort (xs : List Value) : List Value :=
  xs.mergeSort fun a b ↦ order b a != .lt

/-- The first of the least values. -/
def least : List Value → Option Value
  | [] => none
  | x :: xs => some (xs.foldl (fun best y ↦ if order y best == .lt then y else best) x)

/-- The last of the greatest values. -/
def greatest : List Value → Option Value
  | [] => none
  | x :: xs => some (xs.foldl (fun best y ↦ if order y best != .lt then y else best) x)

/-- An object for a key of a value and what is there. -/
def entry (site : Site) (key value : Value) : Value :=
  object (some site) [("key", key), ("value", value)]

end Value

end Query

end JsonEmbed
