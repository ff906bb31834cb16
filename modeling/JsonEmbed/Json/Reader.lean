import JsonEmbed.Json.Numeral

/-!
# Reading JSON documents

`Json.read` reads a whole document, `Json.value` one value and the text after it. Containers nest at
most 127 deep: the reader of a value takes how many containers may still be opened, and that number
is what its recursion descends on. The loops over elements and members take the reader of the items
as an argument and descend on a bound for the number of items, for which the length of the text will
do, since an item is never empty; where the quote before a first key has been taken, it counts too.
-/

namespace JsonEmbed

namespace Json

open Scanner

/-- How deep containers may nest. -/
def maxDepth : Nat := 127

/-- The elements of an array from the first of at least one to its closing bracket. -/
def elements (item : Bytes → ReadResult Json) : Nat → Bytes → ReadResult (List Json)
  | 0, s => Fault.at s .endInList
  | bound + 1, s =>
    match item s with
    | .error e => .error e
    | .ok (x, s) =>
      match skipBlank s with
      | [] => Fault.at [] .endInList
      | 0x5d :: s => .ok ([x], s)
      | 0x2c :: s =>
        match skipBlank s with
        | [] => Fault.at [] .endInValue
        | 0x5d :: s => Fault.at s .trailingComma
        | s =>
          match elements item bound s with
          | .error e => .error e
          | .ok (xs, s) => .ok (x :: xs, s)
      | s => Fault.within s .expectedListEnd

/-- An array from after its opening bracket. -/
def arrayBody (item : Bytes → ReadResult Json) (s : Bytes) : ReadResult Json :=
  match skipBlank s with
  | [] => Fault.at [] .endInList
  | 0x5d :: s => .ok (array [], s)
  | s =>
    match elements item s.length s with
    | .error e => .error e
    | .ok (xs, s) => .ok (array xs, s)

/-- The text after the colon between a key and its value. -/
def colon (s : Bytes) : Except Fault Bytes :=
  match skipBlank s with
  | [] => Fault.at [] .endInObject
  | 0x3a :: s => .ok s
  | s => Fault.within s .expectedColon

/-- A member from after the opening quote of its key. -/
def member (item : Bytes → ReadResult Json) (s : Bytes) :
    Except Fault ((String × Json) × Bytes) := do
  let (key, s) ← Scanner.string s
  let s ← colon s
  let (v, s) ← item s
  return ((key, v), s)

/-- The members of an object from after the opening quote of the first of at least one. -/
def memberList (item : Bytes → ReadResult Json) : Nat → Bytes → ReadResult (List (String × Json))
  | 0, s => Fault.at s .endInObject
  | bound + 1, s =>
    match member item s with
    | .error e => .error e
    | .ok (m, s) =>
      match skipBlank s with
      | [] => Fault.at [] .endInObject
      | 0x7d :: s => .ok ([m], s)
      | 0x2c :: s =>
        match skipBlank s with
        | [] => Fault.at [] .endInValue
        | 0x7d :: s => Fault.at s .trailingComma
        | 0x22 :: s =>
          match memberList item bound s with
          | .error e => .error e
          | .ok (ms, s) => .ok (m :: ms, s)
        | s => Fault.within s .keyNotString
      | s => Fault.within s .expectedObjectEnd

/-- An object from after its opening brace. A key that occurs again replaces the value. -/
def objectBody (item : Bytes → ReadResult Json) (s : Bytes) : ReadResult Json :=
  match skipBlank s with
  | [] => Fault.at [] .endInObject
  | 0x7d :: s => .ok (object [], s)
  | 0x22 :: s =>
    match memberList item (s.length + 1) s with
    | .error e => .error e
    | .ok (ms, s) => .ok (object (ofMembers ms), s)
  | s => Fault.within s .keyNotString

/-- The value of a keyword, from after its first letter. -/
def constant (letters : Bytes) (value : Json) (s : Bytes) : ReadResult Json :=
  match keyword letters s with
  | .ok s => .ok (value, s)
  | .error e => .error e

/-- A number, as a value. -/
def numeral (negative : Bool) (s : Bytes) : ReadResult Json :=
  match Numeral.unsigned negative s with
  | .ok (n, s) => .ok (number n, s)
  | .error e => .error e

/-- A value and the text after it, with containers nested at most `depth` deep. -/
def value (depth : Nat) (s : Bytes) : ReadResult Json :=
  match skipBlank s with
  | [] => Fault.at [] .endInValue
  | 0x6e :: s => constant ull null s
  | 0x74 :: s => constant rue (boolean true) s
  | 0x66 :: s => constant alse (boolean false) s
  | 0x2d :: s => numeral true s
  | 0x22 :: s =>
    match Scanner.string s with
    | .ok (text, s) => .ok (string text, s)
    | .error e => .error e
  | 0x5b :: s =>
    match depth with
    | 0 => Fault.at s .depthLimit
    | depth + 1 => arrayBody (value depth) s
  | 0x7b :: s =>
    match depth with
    | 0 => Fault.at s .depthLimit
    | depth + 1 => objectBody (value depth) s
  | b :: s =>
    if Numeral.isDigit b then numeral false (b :: s) else Fault.at s .expectedValue

/-- One value with nothing but blanks around it. -/
def document (s : Bytes) : Except Fault Json := do
  let (v, rest) ← value maxDepth s
  match skipBlank rest with
  | [] => return v
  | rest => Fault.within rest .trailingCharacters

/-- The value of a document. -/
def read (bytes : Bytes) : Except SyntaxError Json :=
  (document bytes).mapError (SyntaxError.ofFault bytes)

end Json

end JsonEmbed
