import JsonEmbed.Program
import JsonEmbed.Proofs.Members

/-!
# Declared slots

A declaration makes slots available: each scalar member is one, each array member is one for every
index below its length, and a nested block has the slots of its members below its own path.
`Block.slots` lists them in the order in which they are declared.

The assignments of a program are not made from its declaration but from the document, by a walk of
their own. `targets_eq_slots` says that the two walks agree: the targets of the assignments are the
declared slots, each once and in the same order. The induction follows the members, since the path
grows in the same way on both sides; in an array the two sides count differently, from an index on
and below a length, which is what `map_target_ofElements` is about.
-/

namespace JsonEmbed

/-! ### The slots of a declaration -/

namespace Member

/-- The slots of a member that is declared below a path. -/
def slots (path : String) : Member → List String
  | scalar n _ => [path ++ "." ++ n]
  | array n _ length =>
    (List.range length).map fun i ↦ path ++ "." ++ n ++ "[" ++ Nat.repr i ++ "]"
  | nested n _ _ _ ms => slotsOfAll (path ++ "." ++ n) ms
where
  /-- The slots of several members. -/
  slotsOfAll (path : String) : List Member → List String
    | [] => []
    | m :: ms => m.slots path ++ slotsOfAll path ms

end Member

namespace Block

/-- The slots of a block whose members are reached by a path. -/
def slots (path : String) (b : Block) : List String :=
  Member.slots.slotsOfAll path b.members

end Block

/-! ### Both walks agree -/

namespace Assignment

/-- The elements of an array are assigned at consecutive indices. -/
theorem map_target_ofElements (mode : ArrayInitializer) (path : String) (i : Nat) (xs : List Json) :
    (ofElements mode path i xs).map target =
      (List.range' i xs.length).map (elementPath path) := by
  induction xs generalizing i with
  | nil => rfl
  | cons x xs ih =>
    rw [ofElements, List.map_cons, ih, List.length_cons, List.range'_succ, List.map_cons]

/-- The targets of the assignments for members are the slots of their declarations. -/
theorem map_target_ofMembers (mode : ArrayInitializer) (below : BlockKind) (path : String)
    (ms : List (String × Json)) :
    (ofMembers mode path ms).map target =
      Member.slots.slotsOfAll path (Member.ofMembers below ms) := by
  -- a nested object is reached by a longer path, so the statement is about every path at once
  induction ms using Json.membersInduction generalizing path with
  | nil => rfl
  | object key ms rest ih ihrest =>
    rw [ofMembers_object, Member.ofMembers_object, List.map_append, ih, ihrest]
    rfl
  | array key xs t rest h ih =>
    rw [ofMembers_array _ _ _ _ h, Member.ofMembers_array _ _ _ h, List.map_append, ih,
      map_target_ofElements, ← List.range_eq_range']
    rfl
  | scalar key v t rest h ih =>
    rw [ofMembers_scalar _ _ _ _ h, Member.ofMembers_scalar _ _ _ h, List.map_cons, ih]
    rfl
  | dropped key v rest h ih =>
    rw [ofMembers_dropped _ _ _ _ h, Member.ofMembers_dropped _ _ _ h, ih]

end Assignment

/-- **Declarations and assignments agree.** Whatever the depth, the name and the path, the targets
of the assignments for an object are the slots of the block that declares it, in order; and the
program of a value assigns the slots below the name of the block that it declares. -/
theorem targets_eq_slots (options : Options) :
    (∀ (depth : Nat) (name path : String) (ms : List (String × Json)),
      (Assignment.ofMembers options.arrayInitializer path ms).map Assignment.target =
        (Block.ofMembers options depth name ms).slots path) ∧
    ∀ v : Json,
      v.program options = unlines (Program.lines (v.block options) (v.assignments options)) ∧
        (v.assignments options).map Assignment.target =
          (v.block options).slots (v.block options).name := by
  have hmembers : ∀ (depth : Nat) (name path : String) (ms : List (String × Json)),
      (Assignment.ofMembers options.arrayInitializer path ms).map Assignment.target =
        (Block.ofMembers options depth name ms).slots path :=
    fun _ _ path ms ↦ Assignment.map_target_ofMembers _ _ path ms
  refine ⟨hmembers, fun v ↦ ⟨rfl, ?_⟩⟩
  exact hmembers 0 options.rootName (v.block options).name v.members

/-- A member between two that are dropped, an array and a nested block. -/
example :
    (Block.ofMembers {} 0 "r" [("a", .null), ("b", .array [.boolean true, .boolean false]),
      ("c d", .object [("e", .string "x")])]).slots "r" = ["r.b[0]", "r.b[1]", "r.c_d.e"] := by
  decide

end JsonEmbed
