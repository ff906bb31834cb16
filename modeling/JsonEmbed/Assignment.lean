import JsonEmbed.C.Identifier
import JsonEmbed.C.StringLiteral
import JsonEmbed.Options
import JsonEmbed.Tag

/-!
# Assignments

The generated program sets every declared slot by one assignment. `Assignment.ofMembers` lists the
assignments of an object in the order of its keys, walking into nested objects; the target of each
is the path of its slot from a given prefix. Keys whose values have no tag get none.
-/

namespace JsonEmbed

/-- The right-hand side of an assignment. -/
inductive Literal where
  /-- A number, as text. -/
  | number (text : String)
  | boolean (value : Bool)
  /-- The contents of a string. -/
  | string (contents : String)
  | null
  deriving DecidableEq, Inhabited

/-- An assignment to a slot. -/
structure Assignment where
  target : String
  value : Literal
  deriving DecidableEq, Inhabited

namespace Literal

/-- The C text of a literal. -/
def cText : Literal → String
  | number text => text
  | boolean b => if b then "true" else "false"
  | string s => C.stringLiteral s
  | null => "NULL"

/-- The literal of a value; one that is no scalar counts as null. -/
def ofJson : Json → Literal
  | .number n => number n.cText
  | .boolean b => boolean b
  | .string s => string s
  | _ => null

/-- The literal of an array element at an index. -/
def ofElement : ArrayInitializer → Nat → Json → Literal
  | .values, _, v => ofJson v
  | .indices, i, _ => number (Nat.repr i)

/-- A literal as a JSON value. -/
def toJson : Literal → Json
  | number text => .object [("Number", .string text)]
  | boolean b => .object [("Bool", .boolean b)]
  | string s => .object [("Str", .string s)]
  | null => .string "Null"

end Literal

namespace Assignment

/-- The path of a member below a path. -/
def memberPath (path key : String) : String :=
  path ++ "." ++ C.identifier key

/-- The path of an array element. -/
def elementPath (path : String) (index : Nat) : String :=
  path ++ "[" ++ Nat.repr index ++ "]"

/-- The assignments to the elements of an array from an index on. -/
def ofElements (mode : ArrayInitializer) (path : String) : Nat → List Json → List Assignment
  | _, [] => []
  | i, x :: xs => ⟨elementPath path i, .ofElement mode i x⟩ :: ofElements mode path (i + 1) xs

/-- The assignments for a value whose slots begin with the given path. -/
def ofJson (mode : ArrayInitializer) (path : String) : Json → List Assignment
  | .object ms => ofMembers mode path ms
  | .array xs =>
    match Json.arrayTag xs with
    | .invalid => []
    | _ => ofElements mode path 0 xs
  | v =>
    match v.tag with
    | .invalid => []
    | _ => [⟨path, .ofJson v⟩]
where
  /-- The assignments for the members of an object. -/
  ofMembers (mode : ArrayInitializer) (path : String) : List (String × Json) → List Assignment
    | [] => []
    | (key, v) :: rest => ofJson mode (memberPath path key) v ++ ofMembers mode path rest

/-- The assignments for an object whose slots begin with the given path. -/
def ofMembers (mode : ArrayInitializer) (path : String) (ms : List (String × Json)) :
    List Assignment :=
  ofJson.ofMembers mode path ms

/-- The line of an assignment. -/
def line (a : Assignment) : String :=
  "\t" ++ a.target ++ " = " ++ a.value.cText ++ ";"

/-- An assignment as a JSON value. -/
def toJson (a : Assignment) : Json :=
  .object [("target", .string a.target), ("value", a.value.toJson)]

end Assignment

end JsonEmbed
