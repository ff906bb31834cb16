import JsonEmbed.Number.Binary64

/-!
# JSON values

The value that a document denotes. Integers from `-2 ^ 63` to `2 ^ 64 - 1` are kept exactly and any
other number is a binary64 number, so the text `1` and the text `1.0` are different values. An
object keeps its members in the order in which their keys first occurred.
-/

namespace JsonEmbed

/-- A number of a document. -/
inductive Number where
  | integer (value : Int)
  | double (value : Binary64)
  deriving DecidableEq, Inhabited

namespace Number

/-- The numbers that a document can hold: an integer within 64 bits, or a representable fraction. -/
def Valid : Number → Prop
  | integer i => -(Nat.pow 2 63 : Int) ≤ i ∧ i < Nat.pow 2 64
  | double x => Binary64.Representable x.units

end Number

/-- A JSON value. -/
inductive Json where
  | null
  | boolean (value : Bool)
  | number (value : Number)
  | string (value : String)
  | array (elements : List Json)
  | object (members : List (String × Json))
  deriving Inhabited

namespace Json

/-- Puts a member into a list of members: a new key goes to the end, a known one keeps its place. -/
def put {α : Type} (key : String) (value : α) : List (String × α) → List (String × α)
  | [] => [(key, value)]
  | (k, v) :: rest => if k = key then (k, value) :: rest else (k, v) :: put key value rest

/-- The members that result from putting the given ones in order. -/
def ofMembers {α : Type} (members : List (String × α)) : List (String × α) :=
  members.foldl (fun known member ↦ put member.1 member.2 known) []

/-- The members of an object; any other value has none. -/
def members : Json → List (String × Json)
  | object ms => ms
  | _ => []

end Json

end JsonEmbed
