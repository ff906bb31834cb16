import JsonEmbed.Json.Writer

/-!
# Tags

The tag of a value says what C type its slot gets, if it gets one. Strings, booleans, numbers and
objects have a tag of their own; an array has one only as a whole, when its elements are scalars of
one tag or when it has none. Everything else is `invalid` and has no place in the generated program.
-/

namespace JsonEmbed

/-- The kind of a value, as far as the generated program is concerned. -/
inductive Tag where
  | int
  | float
  | string
  | boolean
  /-- An array, with the tag of its elements. -/
  | list (element : Tag)
  | object
  /-- The element tag of an empty array. -/
  | undefined
  /-- No place in the program. -/
  | invalid
  deriving DecidableEq, Inhabited

namespace Tag

/-- Whether a value of this tag fills one slot by itself. -/
def isScalar : Tag → Bool
  | int | float | string | boolean => true
  | _ => false

/-- The C type of one slot. What has no type of its own is an opaque pointer. -/
def cType : Tag → String
  | boolean => "bool"
  | int => "int"
  | float => "float"
  | string => "char*"
  | _ => "void*"

/-- The C type of one element of an array member; a tag that is no array's counts as its own. -/
def elementType : Tag → String
  | list element => element.cType
  | tag => tag.cType

/-- A tag as a JSON value. -/
def toJson : Tag → Json
  | int => .string "Int"
  | float => .string "Float"
  | string => .string "String"
  | boolean => .string "Boolean"
  | list element => .object [("List", element.toJson)]
  | object => .string "Object"
  | undefined => .string "Undefined"
  | invalid => .string "Invalid"

end Tag

namespace Number

/-- A number is an integer by value: `1.0` is one. -/
def tag : Number → Tag
  | integer _ => .int
  | double x => if x.IsIntegral then .int else .float

/-- The C text of a number. A fraction that is an integer within 64 bits is written as one; the
bound itself, one too large, becomes the largest. -/
def cText : Number → String
  | integer i => decimalText i
  | double x =>
    if x.IsIntegral ∧ -(Nat.pow 2 63 : Int) ≤ x.truncate ∧ x.truncate ≤ Nat.pow 2 63 then
      decimalText (min x.truncate (Nat.pow 2 63 - 1))
    else FloatFormat.document.text x

end Number

namespace Json

/-- The tag of a value that fills one slot by itself. -/
def scalarTag? : Json → Option Tag
  | string _ => some .string
  | boolean _ => some .boolean
  | number n => some n.tag
  | _ => none

/-- The tag of an array: its elements are scalars of one tag, or it is invalid as a whole. -/
def arrayTag : List Json → Tag
  | [] => .list .undefined
  | x :: xs =>
    match x.scalarTag? with
    | none => .invalid
    | some t => if xs.all (fun y ↦ y.scalarTag? == some t) then .list t else .invalid

/-- The tag of a value. -/
def tag : Json → Tag
  | string _ => .string
  | boolean _ => .boolean
  | number n => n.tag
  | array xs => arrayTag xs
  | object _ => .object
  | null => .invalid

end Json

end JsonEmbed
