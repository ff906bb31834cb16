import JsonEmbed.Proofs.Collisions

/-!
# Dropped values

A value without a tag has no place in a program, and it leaves no trace there either. `Json.prune`
takes the dropped values out of a document, at every level that is reached through objects, and
nothing else. Both walks over the members give the same for pruned members, declarations of any kind
(`Member.ofMembers_pruneMembers`) and assignments below any path
(`Assignment.ofMembers_pruneMembers`), and so the pruned document has the same program.

What is not dropped stays, also an object that has nothing left: it is declared as a block without
members (`ofMembers_of_dropped`).
-/

namespace JsonEmbed

namespace Json

/-! ### Pruning -/

/-- A value without the members that are dropped, at every level reached through objects. -/
def prune : Json → Json
  | object ms => object (pruneMembers ms)
  | v => v
where
  /-- The members that are not dropped, each with its value pruned. -/
  pruneMembers : List (String × Json) → List (String × Json)
    | [] => []
    | (key, v) :: rest =>
      if v.tag = .invalid then pruneMembers rest else (key, v.prune) :: pruneMembers rest

open prune (pruneMembers)

section Equations

variable (key : String) (rest : List (String × Json))

theorem prune_of_not_object {v : Json} (h : ∀ ms, v ≠ object ms) : v.prune = v := by
  cases v with
  | object ms => exact absurd rfl (h ms)
  | null | boolean | number | string | array => rfl

theorem pruneMembers_dropped {v : Json} (h : v.tag = .invalid) :
    pruneMembers ((key, v) :: rest) = pruneMembers rest := by
  rw [pruneMembers, if_pos h]

theorem pruneMembers_object (ms : List (String × Json)) :
    pruneMembers ((key, object ms) :: rest) =
      (key, object (pruneMembers ms)) :: pruneMembers rest := by
  rw [pruneMembers, if_neg (by simp [tag]), prune]

theorem pruneMembers_array {xs : List Json} {t : Tag} (h : arrayTag xs = .list t) :
    pruneMembers ((key, array xs) :: rest) = (key, array xs) :: pruneMembers rest := by
  rw [pruneMembers, if_neg (by simp [tag, h]), prune_of_not_object fun _ ↦ Json.noConfusion]

theorem pruneMembers_scalar {v : Json} {t : Tag} (h : v.scalarTag? = some t) :
    pruneMembers ((key, v) :: rest) = (key, v) :: pruneMembers rest := by
  rw [pruneMembers, if_neg (tag_ne_invalid_of_scalarTag? h),
    prune_of_not_object (ne_object_of_scalarTag? h)]

end Equations

/-- The members of a pruned value. -/
theorem members_prune (v : Json) : v.prune.members = pruneMembers v.members := by
  cases v <;> rfl

/-- Nothing is left to prune after pruning. -/
theorem pruneMembers_pruneMembers (ms : List (String × Json)) :
    pruneMembers (pruneMembers ms) = pruneMembers ms := by
  induction ms using membersInduction with
  | nil => rfl
  | object key ms rest ih ihrest =>
    rw [pruneMembers_object, pruneMembers_object, ih, ihrest]
  | array key xs t rest h ih => rw [pruneMembers_array _ _ h, pruneMembers_array _ _ h, ih]
  | scalar key v t rest h ih => rw [pruneMembers_scalar _ _ h, pruneMembers_scalar _ _ h, ih]
  | dropped key v rest h ih => rw [pruneMembers_dropped _ _ h, ih]

theorem prune_prune (v : Json) : v.prune.prune = v.prune := by
  cases v with
  | object ms => exact congrArg object (pruneMembers_pruneMembers ms)
  | null | boolean | number | string | array => rfl

/-- No level of pruned members has a dropped value. -/
theorem tag_ne_invalid_of_mem_levels_pruneMembers (ms : List (String × Json)) :
    ∀ level ∈ pruneMembers ms :: levels.levelsOf (pruneMembers ms), ∀ m ∈ level,
      m.2.tag ≠ .invalid := by
  -- the head is the level of the members themselves, so each case has a part for it
  induction ms using membersInduction with
  | nil => simp [pruneMembers, levels.levelsOf]
  | object key ms rest ih ihrest =>
    obtain ⟨hrest, hlower⟩ := List.forall_mem_cons.1 ihrest
    rw [pruneMembers_object]
    refine List.forall_mem_cons.2 ⟨List.forall_mem_cons.2 ⟨Tag.noConfusion, hrest⟩, ?_⟩
    intro level hlevel
    rw [levels.levelsOf, levels, List.mem_append] at hlevel
    exact hlevel.elim (ih level) (hlower level)
  | array key xs t rest h ih =>
    obtain ⟨hrest, hlower⟩ := List.forall_mem_cons.1 ih
    have hxs : tag (array xs) ≠ .invalid := by simp [tag, h]
    rw [pruneMembers_array _ _ h]
    exact List.forall_mem_cons.2 ⟨List.forall_mem_cons.2 ⟨hxs, hrest⟩, hlower⟩
  | scalar key v t rest h ih =>
    obtain ⟨hrest, hlower⟩ := List.forall_mem_cons.1 ih
    rw [pruneMembers_scalar _ _ h, levelsOf_cons_of_not_object (ne_object_of_scalarTag? h)]
    refine List.forall_mem_cons.2 ⟨List.forall_mem_cons.2 ⟨?_, hrest⟩, hlower⟩
    exact tag_ne_invalid_of_scalarTag? h
  | dropped key v rest h ih => rwa [pruneMembers_dropped _ _ h]

/-- A pruned document has no dropped value at any level. -/
theorem tag_ne_invalid_of_mem_levels_prune (v : Json) :
    ∀ level ∈ v.prune.levels, ∀ m ∈ level, m.2.tag ≠ .invalid := by
  cases v with
  | object ms => exact tag_ne_invalid_of_mem_levels_pruneMembers ms
  | null | boolean | number | string | array => exact fun _ h ↦ absurd h List.not_mem_nil

end Json

/-! ### Both walks pass over what is dropped -/

open Json.prune (pruneMembers)

namespace Member

/-- A pruned object is declared like the object. -/
theorem ofMembers_pruneMembers (below : BlockKind) (ms : List (String × Json)) :
    ofMembers below (pruneMembers ms) = ofMembers below ms := by
  induction ms using Json.membersInduction with
  | nil => rfl
  | object key ms rest ih ihrest =>
    rw [Json.pruneMembers_object, ofMembers_object, ofMembers_object, ih, ihrest]
  | array key xs t rest h ih =>
    rw [Json.pruneMembers_array _ _ h, ofMembers_array _ _ _ h, ofMembers_array _ _ _ h, ih]
  | scalar key v t rest h ih =>
    rw [Json.pruneMembers_scalar _ _ h, ofMembers_scalar _ _ _ h, ofMembers_scalar _ _ _ h, ih]
  | dropped key v rest h ih =>
    rw [Json.pruneMembers_dropped _ _ h, ofMembers_dropped _ _ _ h, ih]

/-- Members are declared one after another. -/
theorem ofMembers_append (below : BlockKind) (ms ns : List (String × Json)) :
    ofMembers below (ms ++ ns) = ofMembers below ms ++ ofMembers below ns := by
  induction ms with
  | nil => rfl
  | cons m ms ih =>
    obtain ⟨key, v⟩ := m
    simp only [ofMembers, List.cons_append, ofJson?.ofMembers] at ih ⊢
    cases ofJson? below key v with
    | none => exact ih
    | some first => exact congrArg (first :: ·) ih

/-- If all members of an object are dropped, nothing is declared for them. -/
theorem ofMembers_of_dropped (below : BlockKind) {ms : List (String × Json)}
    (h : ∀ m ∈ ms, m.2.tag = .invalid) : ofMembers below ms = [] := by
  induction ms with
  | nil => rfl
  | cons m ms ih =>
    obtain ⟨hm, hms⟩ := List.forall_mem_cons.1 h
    rw [ofMembers_dropped _ _ _ hm, ih hms]

end Member

namespace Assignment

/-- A pruned object is assigned like the object. -/
theorem ofMembers_pruneMembers (mode : ArrayInitializer) (path : String)
    (ms : List (String × Json)) :
    ofMembers mode path (pruneMembers ms) = ofMembers mode path ms := by
  induction ms using Json.membersInduction generalizing path with
  | nil => rfl
  | object key ms rest ih ihrest =>
    rw [Json.pruneMembers_object, ofMembers_object, ofMembers_object, ih, ihrest]
  | array key xs t rest h ih =>
    rw [Json.pruneMembers_array _ _ h, ofMembers_array _ _ _ _ h, ofMembers_array _ _ _ _ h, ih]
  | scalar key v t rest h ih =>
    rw [Json.pruneMembers_scalar _ _ h, ofMembers_scalar _ _ _ _ h, ofMembers_scalar _ _ _ _ h,
      ih]
  | dropped key v rest h ih =>
    rw [Json.pruneMembers_dropped _ _ h, ofMembers_dropped _ _ _ _ h, ih]

end Assignment

/-! ### Omission -/

/-- **Omission is complete and invisible.** Pruning leaves no dropped value at any level, and once
is enough. A pruned document has the block, the assignments and the program of the document, and the
same is true of a pruned object at any depth, under any name and below any path. An object whose
members are all dropped is declared nevertheless, wherever it stands among the members of another
one: as a block without members. -/
theorem program_prune (options : Options) :
    (∀ v : Json, v.prune.prune = v.prune ∧
      (∀ level ∈ v.prune.levels, ∀ m ∈ level, m.2.tag ≠ .invalid) ∧
      v.prune.block options = v.block options ∧
      v.prune.assignments options = v.assignments options ∧
      v.prune.program options = v.program options) ∧
    (∀ (depth : Nat) (name path : String) (ms : List (String × Json)),
      Block.ofMembers options depth name (Json.object ms).prune.members =
        Block.ofMembers options depth name ms ∧
      Assignment.ofMembers options.arrayInitializer path (Json.object ms).prune.members =
        Assignment.ofMembers options.arrayInitializer path ms) ∧
    ∀ ms : List (String × Json), (∀ m ∈ ms, m.2.tag = .invalid) →
      ((Json.object ms).block options).members = [] ∧
      ∀ (depth : Nat) (name key : String) (before after : List (String × Json)),
        (Block.ofMembers options depth name (before ++ (key, .object ms) :: after)).members =
          (Block.ofMembers options depth name before).members ++
            .nested (C.identifier key) .object (.atDepth options.nestedLayout (depth + 1))
              (C.identifier key) [] ::
            (Block.ofMembers options depth name after).members := by
  refine ⟨fun v ↦ ?_, fun depth name path ms ↦ ⟨?_, ?_⟩, fun ms hms ↦ ⟨?_, ?_⟩⟩
  · have hblock : v.prune.block options = v.block options := by
      rw [Json.block, Json.block, Json.members_prune, Block.ofMembers, Block.ofMembers]
      exact congrArg _ (Member.ofMembers_pruneMembers _ v.members)
    have hassignments : v.prune.assignments options = v.assignments options := by
      rw [Json.assignments, Json.assignments, Json.members_prune,
        Assignment.ofMembers_pruneMembers]
    refine ⟨v.prune_prune, v.tag_ne_invalid_of_mem_levels_prune, hblock, hassignments, ?_⟩
    rw [Json.program, Json.program, hblock, hassignments]
  · exact congrArg (Block.mk _ _) (Member.ofMembers_pruneMembers _ ms)
  · exact Assignment.ofMembers_pruneMembers _ path ms
  · exact Member.ofMembers_of_dropped _ hms
  · intro depth name key before after
    show Member.ofMembers _ _ = Member.ofMembers _ _ ++ _ :: Member.ofMembers _ _
    rw [Member.ofMembers_append, Member.ofMembers_object, Member.ofMembers_of_dropped _ hms]

/-- An object of a null and a mixed array is declared as an empty block between its neighbours. -/
theorem program_prune_emptied :
    let ms : List (String × Json) :=
      [("n", .null), ("m", .array [.boolean true, .string "x"])]
    (∀ m ∈ ms, m.2.tag = .invalid) ∧
      (Block.ofMembers {} 0 "r" ([("a", .boolean true)] ++ ("o", .object ms) ::
        [("z", .string "y")])).members =
        [.scalar "a" .boolean, .nested "o" .object .union "o" [], .scalar "z" .string] := by
  intro ms
  have hms : ∀ m ∈ ms, m.2.tag = .invalid := by decide
  obtain ⟨-, -, hempty⟩ := program_prune {}
  refine ⟨hms, ?_⟩
  rw [(hempty ms hms).2]
  rfl

end JsonEmbed
