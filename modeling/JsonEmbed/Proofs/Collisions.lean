import JsonEmbed.Proofs.Addresses

/-!
# Colliding names

Different keys can have one identifier: `a-b` and `a b` both become `a_b`. Then a block declares two
members of one name, and their slots are assigned twice. `separate_iff` says when none of this
happens: at every level of the document, the keys whose values are not dropped must have distinct
identifiers. Distinct keys are not enough (`exists_collision`).

The names of a block are the identifiers of its level (`map_name_ofMembers`), and the blocks of a
declaration are those of the levels of the document (`blocksOfAll_ofMembers`); so the condition
says that no block has two members of one name, and what follows for slots is
`Member.nodup_slotsOfAll`.
-/

namespace JsonEmbed

namespace Json

/-! ### The levels of a document -/

/-- The members of an object and of every object inside it that is reached through objects. -/
def levels : Json → List (List (String × Json))
  | object ms => ms :: levelsOf ms
  | _ => []
where
  /-- The levels of the values of several members. -/
  levelsOf : List (String × Json) → List (List (String × Json))
    | [] => []
    | (_, v) :: rest => v.levels ++ levelsOf rest

/-- The identifiers of the keys whose values are not dropped. -/
def identifiers (ms : List (String × Json)) : List String :=
  (ms.filter fun m ↦ m.2.tag ≠ .invalid).map fun m ↦ C.identifier m.1

theorem identifiers_cons_of_tag_ne {key : String} {v : Json} {rest : List (String × Json)}
    (h : v.tag ≠ .invalid) :
    identifiers ((key, v) :: rest) = C.identifier key :: identifiers rest := by
  rw [identifiers, List.filter_cons_of_pos (by simpa using h)]
  rfl

theorem identifiers_cons_of_tag_eq {key : String} {v : Json} {rest : List (String × Json)}
    (h : v.tag = .invalid) : identifiers ((key, v) :: rest) = identifiers rest := by
  rw [identifiers, List.filter_cons_of_neg (by simpa using h)]
  rfl

/-- A value that is no object has no levels. -/
theorem levelsOf_cons_of_not_object {key : String} {v : Json} {rest : List (String × Json)}
    (h : ∀ ms, v ≠ object ms) : levels.levelsOf ((key, v) :: rest) = levels.levelsOf rest := by
  cases v with
  | object ms => exact absurd rfl (h ms)
  | null | boolean | number | string | array => rfl

end Json

namespace Member

/-! ### The names and the blocks of a declaration -/

/-- The names declared for the members of an object are the identifiers of its keys. -/
theorem map_name_ofMembers (below : BlockKind) (ms : List (String × Json)) :
    (ofMembers below ms).map name = Json.identifiers ms := by
  induction ms using Json.membersInduction with
  | nil => rfl
  | object key ms rest ih ihrest =>
    rw [ofMembers_object, Json.identifiers_cons_of_tag_ne (by simp [Json.tag]), List.map_cons,
      ihrest]
    rfl
  | array key xs t rest h ih =>
    rw [ofMembers_array _ _ _ h, Json.identifiers_cons_of_tag_ne (by simp [Json.tag, h]),
      List.map_cons, ih]
    rfl
  | scalar key v t rest h ih =>
    rw [ofMembers_scalar _ _ _ h,
      Json.identifiers_cons_of_tag_ne (Json.tag_ne_invalid_of_scalarTag? h), List.map_cons, ih]
    rfl
  | dropped key v rest h ih =>
    rw [ofMembers_dropped _ _ _ h, Json.identifiers_cons_of_tag_eq h, ih]

/-- The blocks declared inside an object are those of its inner levels. -/
theorem blocksOfAll_ofMembers (below : BlockKind) (ms : List (String × Json)) :
    blocks.blocksOfAll (ofMembers below ms) =
      (Json.levels.levelsOf ms).map (ofMembers below) := by
  induction ms using Json.membersInduction with
  | nil => rfl
  | object key ms rest ih ihrest =>
    rw [ofMembers_object, blocks.blocksOfAll, blocks, ih, ihrest, Json.levels.levelsOf,
      Json.levels, List.map_append, List.map_cons]
  | array key xs t rest h ih =>
    rw [ofMembers_array _ _ _ h, Json.levelsOf_cons_of_not_object (fun _ ↦ Json.noConfusion), ← ih]
    rfl
  | scalar key v t rest h ih =>
    rw [ofMembers_scalar _ _ _ h,
      Json.levelsOf_cons_of_not_object (Json.ne_object_of_scalarTag? h), ← ih]
    rfl
  | dropped key v rest h ih =>
    rw [ofMembers_dropped _ _ _ h,
      Json.levelsOf_cons_of_not_object (Json.ne_object_of_tag_invalid h), ih]

end Member

namespace Block

/-- The members of a block and of every block inside it. -/
def blocks (b : Block) : List (List Member) :=
  b.members :: Member.blocks.blocksOfAll b.members

/-- The names in all blocks of a declaration are the identifiers at all levels of its object. -/
theorem map_map_name_blocks (options : Options) (depth : Nat) (name : String)
    (ms : List (String × Json)) :
    (ofMembers options depth name ms).blocks.map (List.map Member.name) =
      (Json.object ms).levels.map Json.identifiers := by
  have hnames : List.map Member.name ∘ Member.ofMembers (.atDepth options.nestedLayout (depth + 1))
      = Json.identifiers :=
    funext (Member.map_name_ofMembers _)
  rw [Json.levels, List.map_cons, ← hnames, ← List.map_map, ← Member.blocksOfAll_ofMembers]
  rfl

end Block

/-! ### Collisions -/

/-- Members and assignments are kept apart: no block has two members of one name, no slot is
assigned twice, and so every declared slot is assigned exactly once. -/
structure Separate (b : Block) (path : String) (assignments : List Assignment) : Prop where
  names : ∀ members ∈ b.blocks, (members.map Member.name).Nodup
  targets : (assignments.map Assignment.target).Nodup
  assigned : ∀ s ∈ b.slots path, (assignments.map Assignment.target).count s = 1

/-- **Nothing collides if and only if identifiers are distinct at every level**, whatever the
options, the depth, the name and the path. -/
theorem separate_iff (options : Options) (depth : Nat) (name path : String)
    (ms : List (String × Json)) :
    Separate (Block.ofMembers options depth name ms) path
        (Assignment.ofMembers options.arrayInitializer path ms) ↔
      ∀ level ∈ (Json.object ms).levels, (Json.identifiers level).Nodup := by
  have hnames : (∀ members ∈ (Block.ofMembers options depth name ms).blocks,
      (members.map Member.name).Nodup) ↔
      ∀ level ∈ (Json.object ms).levels, (Json.identifiers level).Nodup := by
    rw [← List.forall_mem_map (f := List.map Member.name) (P := List.Nodup),
      Block.map_map_name_blocks, List.forall_mem_map]
  refine ⟨fun h ↦ hnames.1 h.names, fun h ↦ ?_⟩
  have hblocks := hnames.2 h
  have htargets := Assignment.map_target_ofMembers options.arrayInitializer
    (.atDepth options.nestedLayout (depth + 1)) path ms
  have hnodup : ((Assignment.ofMembers options.arrayInitializer path ms).map
      Assignment.target).Nodup := by
    rw [htargets]
    exact Member.nodup_slotsOfAll (Member.allWellFormed_ofMembers _ ms) path
      (hblocks _ List.mem_cons_self) fun b hb ↦ hblocks b (List.mem_cons_of_mem _ hb)
  refine ⟨hblocks, hnodup, fun s hs ↦ List.count_eq_one_of_mem hnodup ?_⟩
  rw [htargets]
  exact hs

/-- Distinct keys do not keep members and assignments apart. -/
theorem exists_collision :
    let ms : List (String × Json) :=
      [("a-b", .number (.integer 1)), ("a b", .number (.integer 2))]
    (∀ level ∈ (Json.object ms).levels, (level.map Prod.fst).Nodup) ∧
      ¬((Block.ofMembers {} 0 "r" ms).members.map Member.name).Nodup ∧
      ¬((Assignment.ofMembers .values "r" ms).map Assignment.target).Nodup := by
  decide

end JsonEmbed
