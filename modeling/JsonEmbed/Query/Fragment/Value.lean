import JsonEmbed.Json.Writer
import JsonEmbed.Number.Decimal

/-!
# Query values

The values that queries of the fragment compute with, and how they are printed. A number is an
integer of 64 bits, a binary64 number, or the text of a decimal that no arithmetic has touched yet:
a document's `1e400` or `1.50` goes through a query unharmed.

Values are ordered: null, false, true, numbers, strings, arrays, objects. One number is below itself
and equal to nothing, the one that is no number; so an array that holds it is not equal to another
one built in the same way. Yet it is equal to itself: an array or object that a query builds
remembers the `Site` in the evaluation where it was built, and those of one site are the same.
-/

namespace JsonEmbed

namespace Query

/-- How queries write binary64 numbers. -/
def floatFormat : FloatFormat := ⟨-4, 16, "", .upward⟩

/-- A place in an evaluation: which part of which part of it, the innermost first. Different parts
have different places, and the same part for different values too. -/
abbrev Site := List Nat

/-- The value of a query. An array or object comes with the site where it was built, unless it is
part of the document or the query text. -/
inductive Value where
  | null
  | boolean (value : Bool)
  | integer (value : Int)
  | float (value : Extended)
  /-- A number that is kept as its text. -/
  | decimal (text : String)
  | string (value : String)
  | array (site : Option Site) (elements : List Value)
  | object (site : Option Site) (members : List (String × Value))
  deriving Inhabited

/-- The least integer. -/
def minInteger : Int := -(Nat.pow 2 63 : Int)

/-- The largest integer. -/
def maxInteger : Int := Nat.pow 2 63 - 1

/-- Whether an integer has 64 bits. -/
def fits (i : Int) : Bool :=
  decide (minInteger ≤ i ∧ i ≤ maxInteger)

namespace Value

/-- A number, from its text: an integer if the text is one of at most 64 bits. -/
def ofNumeral (text : String) : Value :=
  match Extended.integer? text.toList with
  | some i => if fits i then integer i else decimal text
  | none => decimal text

/-- The value of a document. -/
def ofJson : Json → Value
  | .null => null
  | .boolean b => boolean b
  | .number n => ofNumeral n.text
  | .string s => string s
  | .array xs => array none (elementsOf xs)
  | .object ms => object none (membersOf ms)
where
  /-- The values of the elements of an array. -/
  elementsOf : List Json → List Value
    | [] => []
    | x :: xs => ofJson x :: elementsOf xs
  /-- The values of the members of an object. -/
  membersOf : List (String × Json) → List (String × Value)
    | [] => []
    | (k, v) :: ms => (k, ofJson v) :: membersOf ms

/-- How a character is written inside a string. -/
def escapeChar (c : Char) : List Char :=
  if c = '"' then ['\\', '"']
  else if c = '\\' then ['\\', '\\']
  else if c = '\n' then ['\\', 'n']
  else if c = '\r' then ['\\', 'r']
  else if c = '\t' then ['\\', 't']
  else if c.toNat < 0x20 then
    ['\\', 'u', '0', '0', Json.hexDigit (c.toNat / 16), Json.hexDigit (c.toNat % 16)]
  else [c]

/-- A string with its quotes. -/
def quote (s : String) : String :=
  String.ofList ('"' :: s.toList.flatMap escapeChar ++ ['"'])

/-- The text of a number; one that is not finite is written as null. -/
def floatText : Extended → String
  | .finite x => floatFormat.text x
  | _ => "null"

/-- The text of a value. It is JSON text, except that a kept decimal may be out of range. -/
def text : Value → String
  | null => "null"
  | boolean b => if b then "true" else "false"
  | integer i => decimalText i
  | float x => floatText x
  | decimal t => t
  | string s => quote s
  | array _ xs => "[" ++ Json.separated "," (elementTexts xs) ++ "]"
  | object _ ms => "\x7b" ++ Json.separated "," (memberTexts ms) ++ "\x7d"
where
  /-- The texts of the elements of an array. -/
  elementTexts : List Value → List String
    | [] => []
    | x :: xs => x.text :: elementTexts xs
  /-- The texts of the members of an object. -/
  memberTexts : List (String × Value) → List String
    | [] => []
    | (k, v) :: ms => (quote k ++ ":" ++ v.text) :: memberTexts ms

/-- Everything but null and false counts as true. -/
def isTrue : Value → Bool
  | null => false
  | boolean b => b
  | _ => true

/-- A string as it is, any other value as its text. -/
def toText : Value → String
  | string s => s
  | v => v.text

/-- The name of a value's type. -/
def typeName : Value → String
  | null => "null"
  | boolean _ => "boolean"
  | integer _ | float _ | decimal _ => "number"
  | string _ => "string"
  | array _ _ => "array"
  | object _ _ => "object"

/-- The number that the text of a kept decimal denotes. -/
def ofDecimal (text : String) : Extended :=
  (Extended.ofText? text).getD .notANumber

/-- A number, for comparison and arithmetic: exactly if it is an integer. -/
def number? : Value → Option (Int ⊕ Extended)
  | integer i => some (.inl i)
  | float x => some (.inr x)
  | decimal t => some (.inr (ofDecimal t))
  | _ => none

/-- A number as a binary64 number. -/
def toExtended : Int ⊕ Extended → Extended
  | .inl i => .ofInt i
  | .inr x => x

/-- The place of a value's type in the order. -/
def rank : Value → Nat
  | null => 0
  | boolean false => 1
  | boolean true => 2
  | integer _ | float _ | decimal _ => 3
  | string _ => 4
  | array _ _ => 5
  | object _ _ => 6

/-- The order of numbers: of integers exactly, otherwise of binary64 numbers. What is no number is
below every number, itself included. -/
def compareNumbers : Int ⊕ Extended → Int ⊕ Extended → Ordering
  | .inl i, .inl j => compare i j
  | a, b =>
    let x := toExtended a
    let y := toExtended b
    if x.beq y then .eq else if x.below y then .lt else .gt

/-- The lexicographic order of lists. -/
def compareLists {α : Type} (cmp : α → α → Ordering) : List α → List α → Ordering
  | [], [] => .eq
  | [], _ :: _ => .lt
  | _ :: _, [] => .gt
  | a :: as, b :: bs => (cmp a b).then (compareLists cmp as bs)

/-- Members in the order of their keys. -/
def sortedMembers {α : Type} (ms : List (String × α)) : List (String × α) :=
  ms.mergeSort fun a b ↦ decide (a.1 ≤ b.1)

/-- How deep a value nests. -/
def depth : Value → Nat
  | array _ xs => depthOfElements xs + 1
  | object _ ms => depthOfMembers ms + 1
  | _ => 0
where
  /-- How deep the elements of an array nest. -/
  depthOfElements : List Value → Nat
    | [] => 0
    | x :: xs => max x.depth (depthOfElements xs)
  /-- How deep the members of an object nest. -/
  depthOfMembers : List (String × Value) → Nat
    | [] => 0
    | (_, v) :: ms => max v.depth (depthOfMembers ms)

/-- The order of values that nest at most as deep as the bound. Objects are compared by their sorted
keys first and then by the values in that order. -/
def compareWithin : Nat → Value → Value → Ordering
  | bound, a, b =>
    match a, b with
    | string s, string t => compare s t
    | array _ xs, array _ ys =>
      match bound with
      | 0 => .eq
      | bound + 1 => compareLists (compareWithin bound) xs ys
    | object _ ms, object _ ns =>
      match bound with
      | 0 => .eq
      | bound + 1 =>
        let ms := sortedMembers ms
        let ns := sortedMembers ns
        (compareLists compare (ms.map Prod.fst) (ns.map Prod.fst)).then
          (compareLists (compareWithin bound) (ms.map Prod.snd) (ns.map Prod.snd))
    | a, b =>
      match a.number?, b.number? with
      | some x, some y => compareNumbers x y
      | _, _ => compare a.rank b.rank

/-- The order of values. -/
def order (a b : Value) : Ordering :=
  compareWithin (max a.depth b.depth) a b

/-- Whether two sites are known and the same. -/
def sameSite (s t : Option Site) : Bool :=
  s.isSome && s == t

/-- Equality of values: of numbers by what they denote, of arrays and objects by their parts, unless
they are the same one. -/
def equal : Value → Value → Bool
  | array s xs, array t ys => sameSite s t || equalElements xs ys
  | object s ms, object t ns =>
    sameSite s t || (ms.length == ns.length && equalMembers ms ns)
  | a, b => order a b == .eq
where
  /-- Whether two arrays have equal elements. -/
  equalElements : List Value → List Value → Bool
    | [], [] => true
    | x :: xs, y :: ys => x.equal y && equalElements xs ys
    | _, _ => false
  /-- Whether an object has an equal member for each member. -/
  equalMembers : List (String × Value) → List (String × Value) → Bool
    | [], _ => true
    | (k, v) :: ms, ns => (ns.lookup k).any v.equal && equalMembers ms ns

end Value

end Query

end JsonEmbed
