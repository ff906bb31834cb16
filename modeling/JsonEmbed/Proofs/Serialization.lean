import JsonEmbed.Proofs.Members

/-!
# Declarations as JSON values

A block is told as a JSON value: an object with its name, its kind and its members in order, where a
member is an object with its name, its tag and its layout. A scalar has no more to its layout than
that it is one, an array has its length, and a nested block is told as a block again.

`Block.decode?` reads this form, key by key, without regard to how it was written. It reads what a
block is told as, and finds this block (`Block.decode?_toJson`). So what is told holds all there is
to a block, and of no two blocks the same is told.
-/

namespace JsonEmbed

namespace Tag

/-- The tag that a JSON value tells. -/
def decode? : Json → Option Tag
  | .string "Int" => some int
  | .string "Float" => some float
  | .string "String" => some string
  | .string "Boolean" => some boolean
  | .string "Object" => some object
  | .string "Undefined" => some undefined
  | .string "Invalid" => some invalid
  | .object [("List", element)] => (decode? element).map list
  | _ => none

theorem decode?_toJson (t : Tag) : decode? t.toJson = some t := by
  induction t with
  | list element ih => rw [toJson, decode?, ih]; rfl
  | _ => rfl

end Tag

/-- The kind of block that a JSON value tells. -/
def BlockKind.decode? : Json → Option BlockKind
  | .string "Struct" => some struct
  | .string "Union" => some union
  | _ => none

namespace Member

/-- The member that a JSON value tells. -/
def decode? : Json → Option Member
  | .object [("name", .string n), ("tag", t), ("layout", .string "Scalar")] =>
    (Tag.decode? t).map (scalar n)
  | .object [("name", .string n), ("tag", t),
      ("layout", .object [("Array", .object [("len", .number (.integer length))])])] => do
    return array n (← Tag.decode? t) length.toNat
  | .object [("name", .string n), ("tag", t),
      ("layout", .object [("Nested", .object
        [("name", .string blockName), ("kind", kind), ("fields", .array members)])])] => do
    return nested n (← Tag.decode? t) (← BlockKind.decode? kind) blockName (← decodeAll members)
  | _ => none
where
  /-- The members that JSON values tell, if each tells one. -/
  decodeAll : List Json → Option (List Member)
    | [] => some []
    | v :: vs => do return (← decode? v) :: (← decodeAll vs)

theorem decodeAll_toJsonAll (ms : List Member) :
    decode?.decodeAll (toJson.toJsonAll ms) = some ms := by
  induction ms using listInduction with
  | nil => rfl
  | scalar n t rest ih | array n t length rest ih =>
    rw [toJson.toJsonAll, decode?.decodeAll, ih, toJson, toJson.record, decode?, Tag.decode?_toJson]
    rfl
  | nested n t kind blockName ms rest ih ihrest =>
    simp only [toJson.toJsonAll, decode?.decodeAll, ihrest, toJson, toJson.record,
      toJson.blockJson, decode?, Tag.decode?_toJson, ih]
    cases kind <;> rfl

end Member

namespace Block

/-- The block that a JSON value tells. -/
def decode? : Json → Option Block
  | .object [("name", .string n), ("kind", kind), ("fields", .array members)] => do
    return ⟨n, ← BlockKind.decode? kind, ← Member.decode?.decodeAll members⟩
  | _ => none

/-- **What a block is told as is read as this block.** -/
theorem decode?_toJson (b : Block) : decode? b.toJson = some b := by
  obtain ⟨name, kind, members⟩ := b
  simp only [toJson, Member.toJson.blockJson, decode?, Member.decodeAll_toJsonAll]
  cases kind <;> rfl

end Block

end JsonEmbed
