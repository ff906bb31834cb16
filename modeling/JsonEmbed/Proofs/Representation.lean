import JsonEmbed.Proofs.ArrayTags
import JsonEmbed.Proofs.Collisions
import Mathlib.Data.List.Forall2
import Mathlib.Logic.Relation

/-!
# What a declaration represents

A declaration stands for a document level by level: the members of a block for those keys of an
object whose values are not invalid, in order, each with the tag of its value and the layout that
this tag calls for. `Member.Represents` says this of one member and `Site.Represents` of one block,
together with the kind that its depth calls for.

The blocks of a declaration are reached from the outermost one by going into nested blocks, and into
the objects that these are declared for at the same time (`Site.Encloses`). One such step leads from
what is declared for an object to what is declared for an object (`Site.IsDeclared.step`), so every
site that can be reached is of this form, and the tree as a whole is what `declaration_represents`
says: no block disagrees with its depth, its member or its object.
-/

namespace JsonEmbed

/-- The kind of block that a layout asks for. -/
def NestedLayout.blockKind : NestedLayout → BlockKind
  | union => .union
  | struct => .struct

/-- The kinds of the blocks below the outermost one are the same at every depth. -/
theorem BlockKind.atDepth_succ (layout : NestedLayout) (depth : Nat) :
    atDepth layout (depth + 1) = layout.blockKind := by
  cases layout <;> rfl

/-- The members of an object whose values are not invalid. -/
def Json.kept (ms : List (String × Json)) : List (String × Json) :=
  ms.filter fun m ↦ m.2.tag ≠ .invalid

theorem Json.kept_cons_of_tag_ne {key : String} {v : Json} {rest : List (String × Json)}
    (h : v.tag ≠ .invalid) : kept ((key, v) :: rest) = (key, v) :: kept rest :=
  List.filter_cons_of_pos (by simpa using h)

theorem Json.kept_cons_of_tag_eq {key : String} {v : Json} {rest : List (String × Json)}
    (h : v.tag = .invalid) : kept ((key, v) :: rest) = kept rest :=
  List.filter_cons_of_neg (by simpa using h)

/-- What has the tag of objects is an object. -/
theorem Json.exists_members_of_tag {v : Json} (h : v.tag = .object) : ∃ ms, v = object ms := by
  cases v with
  | object ms => exact ⟨ms, rfl⟩
  | array xs => rcases arrayTag_cases xs with ⟨t, ht⟩ | ht <;> simp [Json.tag, ht] at h
  | number n => rcases numberTag_cases n with hn | hn <;> simp [Json.tag, hn] at h
  | null | boolean | string => exact Tag.noConfusion h

/-! ### One member -/

/-- How a member is laid out. -/
inductive Layout where
  | scalar
  | array (length : Nat)
  | nested (block : Block)

namespace Member

/-- The layout of a member. -/
def layout : Member → Layout
  | scalar _ _ => .scalar
  | array _ _ length => .array length
  | nested _ _ kind blockName ms => .nested ⟨blockName, kind, ms⟩

/-- A member represents a key and its value: it has the identifier of the key and the tag of the
value, and this tag decides its layout. -/
structure Represents (m : Member) (key : String) (v : Json) : Prop where
  name : m.name = C.identifier key
  tag : m.tag = v.tag
  /-- A member is laid out as a scalar exactly for the tags of scalars. -/
  scalar_iff : m.layout = .scalar ↔ m.tag ∈ [Tag.int, .float, .string, .boolean]
  /-- A member is laid out as an array exactly for the tags of arrays, with the observed length. -/
  array_iff : ∀ length, m.layout = .array length ↔
    ∃ t xs, m.tag = .list t ∧ v = .array xs ∧ length = xs.length
  /-- An array is of no length exactly if it has no element tag of its own. -/
  length_eq_zero_iff : ∀ length t, m.layout = .array length → m.tag = .list t →
    (length = 0 ↔ t = .undefined)
  /-- A member is laid out as a nested block exactly for the tag of objects. -/
  nested_iff : (∃ b, m.layout = .nested b) ↔ m.tag = .object
  /-- A nested block is closed by the name of its member. -/
  block_name : ∀ b, m.layout = .nested b → b.name = m.name
  tag_ne : m.tag ≠ .invalid ∧ m.tag ≠ .undefined

section

variable {key : String}

theorem represents_scalar {v : Json} {t : Tag} (h : v.scalarTag? = some t) :
    (scalar (C.identifier key) t).Represents key v where
  name := rfl
  tag := (Json.tag_of_scalarTag? h).symm
  scalar_iff := iff_of_true rfl (Json.mem_scalarTags_iff.2 (Json.isScalar_of_scalarTag? h))
  array_iff length := by
    refine iff_of_false Layout.noConfusion ?_
    rintro ⟨s, xs, -, rfl, -⟩
    simp [Json.scalarTag?] at h
  length_eq_zero_iff _ _ hlayout := Layout.noConfusion hlayout
  nested_iff := by
    refine iff_of_false ?_ ?_
    · rintro ⟨_, hlayout⟩
      exact Layout.noConfusion hlayout
    · rintro rfl
      exact Bool.false_ne_true (Json.isScalar_of_scalarTag? h)
  block_name _ hlayout := Layout.noConfusion hlayout
  tag_ne := by
    rw [Member.tag, ← Json.tag_of_scalarTag? h]
    exact ⟨Json.tag_ne_invalid_of_scalarTag? h, Json.tag_ne_undefined v⟩

theorem represents_array {xs : List Json} {t : Tag} (h : Json.arrayTag xs = .list t) :
    (array (C.identifier key) (.list t) xs.length).Represents key (.array xs) where
  name := rfl
  tag := h.symm
  scalar_iff := iff_of_false Layout.noConfusion fun hmem ↦ by simp [Member.tag] at hmem
  array_iff length := by
    constructor
    · rintro ⟨⟩
      exact ⟨t, xs, rfl, rfl, rfl⟩
    · rintro ⟨s, ys, -, hys, rfl⟩
      obtain rfl := Json.array.inj hys
      rfl
  length_eq_zero_iff length s hlayout hs := by
    obtain rfl := Layout.array.inj hlayout
    obtain rfl := Tag.list.inj hs
    rw [List.length_eq_zero_iff]
    refine ⟨?_, fun ht ↦ ?_⟩
    · rintro rfl
      exact (Tag.list.inj h).symm
    · exact Json.haveElementTag_undefined_iff.1 (Json.tag_array_eq_list_iff.1 (ht ▸ h))
  nested_iff := by
    refine iff_of_false ?_ Tag.noConfusion
    rintro ⟨_, hlayout⟩
    exact Layout.noConfusion hlayout
  block_name _ hlayout := Layout.noConfusion hlayout
  tag_ne := ⟨Tag.noConfusion, Tag.noConfusion⟩

theorem represents_nested (below : BlockKind) (ms : List Member) (ns : List (String × Json)) :
    (nested (C.identifier key) .object below (C.identifier key) ms).Represents key
      (.object ns) where
  name := rfl
  tag := rfl
  scalar_iff := iff_of_false Layout.noConfusion fun hmem ↦ by simp [Member.tag] at hmem
  array_iff length := by
    refine iff_of_false Layout.noConfusion ?_
    rintro ⟨t, xs, ht, -⟩
    exact Tag.noConfusion ht
  length_eq_zero_iff _ _ hlayout := Layout.noConfusion hlayout
  nested_iff := iff_of_true ⟨_, rfl⟩ rfl
  block_name b hlayout := by
    obtain rfl := Layout.nested.inj hlayout
    rfl
  tag_ne := ⟨Tag.noConfusion, Tag.noConfusion⟩

end

/-- A member is what is declared for a key and its value. -/
structure IsDeclared (below : BlockKind) (m : Member) (key : String) (v : Json) : Prop where
  represents : m.Represents key v
  /-- For an object, a block is declared in turn. -/
  block : ∀ ns, v = .object ns →
    m.layout = .nested ⟨C.identifier key, below, ofMembers below ns⟩

/-- The members of a block are what is declared for the members of its object that are kept. -/
theorem forall₂_isDeclared (below : BlockKind) (ms : List (String × Json)) :
    List.Forall₂ (fun m p ↦ IsDeclared below m p.1 p.2) (ofMembers below ms) (Json.kept ms) := by
  induction ms using Json.membersInduction with
  | nil => exact .nil
  | object key ns rest _ ihrest =>
    rw [ofMembers_object, Json.kept_cons_of_tag_ne (by simp [Json.tag])]
    refine .cons ⟨represents_nested below _ ns, fun ns' hns ↦ ?_⟩ ihrest
    obtain rfl := Json.object.inj hns
    rfl
  | array key xs t rest h ih =>
    rw [ofMembers_array _ _ _ h, Json.kept_cons_of_tag_ne (by simp [Json.tag, h])]
    exact .cons ⟨represents_array h, fun _ ↦ Json.noConfusion⟩ ih
  | scalar key v t rest h ih =>
    rw [ofMembers_scalar _ _ _ h, Json.kept_cons_of_tag_ne (Json.tag_ne_invalid_of_scalarTag? h)]
    exact .cons ⟨represents_scalar h, fun ns hv ↦ absurd hv (Json.ne_object_of_scalarTag? h ns)⟩ ih
  | dropped key v rest h ih =>
    rw [ofMembers_dropped _ _ _ h, Json.kept_cons_of_tag_eq h]
    exact ih

end Member

/-! ### All blocks -/

/-- A block of a declaration with its depth and the members of the object that it is declared
for. -/
structure Site where
  depth : Nat
  block : Block
  members : List (String × Json)

namespace Site

/-- A nested block is one level further in, and is declared for the object that is the value of its
member. -/
inductive Encloses : Site → Site → Prop
  | nested {s : Site} {m : Member} {key : String} {ns : List (String × Json)} {b : Block}
    (hmember : (m, key, .object ns) ∈ s.block.members.zip (Json.kept s.members))
    (hlayout : m.layout = .nested b) : Encloses s ⟨s.depth + 1, b, ns⟩

/-- A block represents its object: it is of the kind that its depth calls for, and its members
represent the keys whose values are kept, in order. -/
structure Represents (layout : NestedLayout) (s : Site) : Prop where
  kind_outermost : s.depth = 0 → s.block.kind = .struct
  kind_below : 0 < s.depth → s.block.kind = layout.blockKind
  members : List.Forall₂ (fun m p ↦ m.Represents p.1 p.2) s.block.members (Json.kept s.members)
  /-- Every nested block belongs to an object of its own. -/
  nested : ∀ m ∈ s.block.members, ∀ b, m.layout = .nested b →
    ∃ ns, s.Encloses ⟨s.depth + 1, b, ns⟩

variable {options : Options} {s t : Site}

/-- A block that is declared for its object at its depth. -/
def IsDeclared (options : Options) (s : Site) : Prop :=
  ∃ name, s.block = Block.ofMembers options s.depth name s.members

theorem IsDeclared.forall₂_members (h : s.IsDeclared options) :
    List.Forall₂ (fun m p ↦ Member.IsDeclared options.nestedLayout.blockKind m p.1 p.2)
      s.block.members (Json.kept s.members) := by
  obtain ⟨name, hblock⟩ := h
  rw [hblock, Block.ofMembers, BlockKind.atDepth_succ]
  exact Member.forall₂_isDeclared _ s.members

/-- Inside a block that is declared for its object, so is every nested one. -/
theorem IsDeclared.step (h : s.IsDeclared options) (hst : s.Encloses t) : t.IsDeclared options := by
  cases hst with
  | @nested m key ns b hmember hlayout =>
    have hdeclared := (List.forall₂_zip h.forall₂_members hmember).block ns rfl
    obtain rfl := Layout.nested.inj (hlayout.symm.trans hdeclared)
    exact ⟨key, by rw [Block.ofMembers, BlockKind.atDepth_succ, BlockKind.atDepth_succ]⟩

/-- However far one goes in, blocks are declared for their objects. -/
theorem IsDeclared.reach (h : s.IsDeclared options)
    (hst : Relation.ReflTransGen Encloses s t) : t.IsDeclared options := by
  induction hst with
  | refl => exact h
  | tail _ hstep ih => exact ih.step hstep

/-- What is declared for an object represents it. -/
theorem IsDeclared.represents (h : s.IsDeclared options) :
    s.Represents options.nestedLayout where
  kind_outermost hdepth := by
    obtain ⟨name, hblock⟩ := h
    rw [hblock, Block.ofMembers, hdepth]
    rfl
  kind_below hdepth := by
    obtain ⟨name, hblock⟩ := h
    obtain ⟨depth, hsucc⟩ := Nat.exists_eq_succ_of_ne_zero (Nat.ne_of_gt hdepth)
    rw [hblock, Block.ofMembers, hsucc, BlockKind.atDepth_succ]
  members := h.forall₂_members.imp fun _ _ hdeclared ↦ hdeclared.represents
  nested m hm b hlayout := by
    have hlength := Nat.le_of_eq h.forall₂_members.length_eq
    rw [← List.map_fst_zip hlength] at hm
    obtain ⟨⟨m, key, v⟩, hmember, rfl⟩ := List.mem_map.1 hm
    have hrepresents := (List.forall₂_zip h.forall₂_members hmember).represents
    have htag : v.tag = .object := hrepresents.tag ▸ hrepresents.nested_iff.1 ⟨b, hlayout⟩
    obtain ⟨ns, rfl⟩ := Json.exists_members_of_tag htag
    exact ⟨ns, .nested hmember hlayout⟩

end Site

/-- **A declaration represents its document at every level.** Whatever the name and the depth that
it begins at, the block declared for an object has the identifier of the name, and every block that
is reached inside it is of the kind that its depth calls for and stands member by member for the
keys of its own object whose values are not invalid. -/
theorem declaration_represents (options : Options) (depth : Nat) (name : String)
    (ms : List (String × Json)) :
    (Block.ofMembers options depth name ms).name = C.identifier name ∧
      ∀ s : Site,
        Relation.ReflTransGen Site.Encloses ⟨depth, Block.ofMembers options depth name ms, ms⟩ s →
          s.Represents options.nestedLayout := by
  refine ⟨rfl, fun s hs ↦ ?_⟩
  have houter : Site.IsDeclared options ⟨depth, Block.ofMembers options depth name ms, ms⟩ :=
    ⟨name, rfl⟩
  exact (houter.reach hs).represents

end JsonEmbed
