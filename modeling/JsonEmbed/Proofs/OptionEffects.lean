import JsonEmbed.Proofs.LineStructure
import JsonEmbed.Proofs.Representation

/-!
# What each option changes

Three options bear on the text of a program, and each of them changes only what it is named for: the
layout of nested objects the kinds of the blocks below the outermost one, the initializer of arrays
what their elements are set to, and the name of the root that name in the declaration and at the
front of every target.

Two programs are compared line by line. A change of the layout is followed through the members of a
declaration (`Member.forall₂_linesOfAll`); the other two are read off the leaves of the document,
from which assignments are made by one function. `Program.forall₂_lines` puts declarations and
assignments together for whatever relation of lines, and `forall₂_textLines` takes that to the text,
so that it is known of every line of one program which line of the other belongs to it, and how they
may differ.
-/

namespace JsonEmbed

/-! ### Texts line by line -/

/-- The lines of a text. What follows the last line break is a line, too. -/
def textLines (s : String) : List String :=
  (splitOn '\n' s.toList).map String.ofList

theorem textLines_unlines {ls : List String} (h : ∀ l ∈ ls, IsLine l) :
    textLines (unlines ls) = ls ++ [""] := by
  have hmap : (ls.map String.toList).map String.ofList = ls := by
    rw [List.map_map]
    exact (List.map_congr_left fun l _ ↦ String.ofList_toList).trans (List.map_id ls)
  rw [textLines, splitOn_unlines h, List.map_append, hmap]
  rfl

/-- Programs are related line by line if their declarations and their assignments are. -/
theorem Program.forall₂_lines {R : String → String → Prop} (hrefl : ∀ l, R l l) {b c : Block}
    {as bs : List Assignment} (hblock : List.Forall₂ R (b.lines 0) (c.lines 0))
    (has : List.Forall₂ (fun a a' ↦ R a.line a'.line) as bs) :
    List.Forall₂ R (lines b as) (lines c bs) := by
  have hsame : ∀ ls, List.Forall₂ R ls ls := fun ls ↦ List.forall₂_same.2 fun l _ ↦ hrefl l
  have hstatements : List.Forall₂ R (statements as) (statements bs) := by
    cases has with
    | nil => exact .nil
    | cons ha has =>
      exact .cons (hrefl _) (List.forall₂_map_left_iff.2 (List.forall₂_map_right_iff.2
        (.cons ha has)))
  rw [lines_eq, lines_eq]
  exact List.rel_append (hsame _)
    (List.rel_append hblock (List.rel_append hstatements (hsame _)))

namespace Json

/-- Programs whose lines are related one by one are texts whose lines are. -/
theorem forall₂_textLines {R : String → String → Prop} (hrefl : ∀ l, R l l) (v : Json)
    {o o' : Options} (hblock : List.Forall₂ R ((v.block o).lines 0) ((v.block o').lines 0))
    (has : List.Forall₂ (fun a a' ↦ R a.line a'.line) (v.assignments o) (v.assignments o')) :
    List.Forall₂ R (textLines (v.program o)) (textLines (v.program o')) := by
  rw [program, program, textLines_unlines fun _ ↦ v.isLine_of_mem_lines o,
    textLines_unlines fun _ ↦ v.isLine_of_mem_lines o']
  exact List.rel_append (Program.forall₂_lines hrefl hblock has) (.cons (hrefl _) .nil)

/-- Assignments are related one by one if those to each leaf are. -/
theorem forall₂_assignments {R : Assignment → Assignment → Prop} (v : Json) {o o' : Options}
    (h : ∀ l ∈ leavesOf v.members,
      R (l.assignment o.arrayInitializer (C.identifier o.rootName))
        (l.assignment o'.arrayInitializer (C.identifier o'.rootName))) :
    List.Forall₂ R (v.assignments o) (v.assignments o') := by
  rw [assignments, assignments, Assignment.ofMembers_eq_map_leaves,
    Assignment.ofMembers_eq_map_leaves, List.forall₂_map_left_iff, List.forall₂_map_right_iff,
    List.forall₂_same]
  exact h

end Json

/-! ### The layout of nested objects -/

namespace Member

/-- A member with every block in it of the given kind. -/
def recast (kind : BlockKind) : Member → Member
  | scalar n t => scalar n t
  | array n t length => array n t length
  | nested n t _ blockName ms => nested n t kind blockName (recastAll kind ms)
where
  /-- Several members with every block in them of the given kind. -/
  recastAll (kind : BlockKind) : List Member → List Member
    | [] => []
    | m :: ms => m.recast kind :: recastAll kind ms

/-- Declarations with blocks of different kinds differ in these kinds. -/
theorem recastAll_ofMembers (kind kind' : BlockKind) (ms : List (String × Json)) :
    recast.recastAll kind' (ofMembers kind ms) = ofMembers kind' ms := by
  induction ms using Json.membersInduction with
  | nil => rfl
  | object key ns rest ih ihrest =>
    rw [ofMembers_object, ofMembers_object, recast.recastAll, recast, ih, ihrest]
  | array key xs t rest h ih =>
    rw [ofMembers_array _ _ _ h, ofMembers_array _ _ _ h, recast.recastAll, recast, ih]
  | scalar key v t rest h ih =>
    rw [ofMembers_scalar _ _ _ h, ofMembers_scalar _ _ _ h, recast.recastAll, recast, ih]
  | dropped key v rest h ih => rw [ofMembers_dropped _ _ _ h, ofMembers_dropped _ _ _ h, ih]

end Member

/-- The block with every block inside it of the given kind. -/
def Block.recast (kind : BlockKind) (b : Block) : Block :=
  { b with members := Member.recast.recastAll kind b.members }

/-- Two lines that are the same, or that open a nested block, each one of its own kind. -/
def SameButKind (kind kind' : BlockKind) (l l' : String) : Prop :=
  l = l' ∨
    ∃ depth, 0 < depth ∧ l = Block.opening depth kind ∧ l' = Block.opening depth kind'

/-- The lines of members below the outermost block differ in the kinds of blocks. -/
theorem Member.forall₂_linesOfAll (kind kind' : BlockKind) {depth : Nat} (hdepth : 0 < depth)
    (ms : List (String × Json)) :
    List.Forall₂ (SameButKind kind kind') (lines.linesOfAll (depth + 1) (ofMembers kind ms))
      (lines.linesOfAll (depth + 1) (ofMembers kind' ms)) := by
  have hsame : ∀ ls, List.Forall₂ (SameButKind kind kind') ls ls :=
    fun ls ↦ List.forall₂_same.2 fun _ _ ↦ Or.inl rfl
  induction ms using Json.membersInduction generalizing depth with
  | nil => exact .nil
  | object key ns rest ih ihrest =>
    rw [ofMembers_object, ofMembers_object]
    have hopening : SameButKind kind kind' (Block.opening depth kind) (Block.opening depth kind') :=
      Or.inr ⟨depth, hdepth, rfl, rfl⟩
    exact List.rel_append (.cons hopening (List.rel_append (ih (Nat.succ_pos depth)) (hsame _)))
      (ihrest hdepth)
  | array key xs t rest h ih =>
    rw [ofMembers_array _ _ _ h, ofMembers_array _ _ _ h]
    exact List.rel_append (hsame _) (ih hdepth)
  | scalar key v t rest h ih =>
    rw [ofMembers_scalar _ _ _ h, ofMembers_scalar _ _ _ h]
    exact List.rel_append (hsame _) (ih hdepth)
  | dropped key v rest h ih =>
    rw [ofMembers_dropped _ _ _ h, ofMembers_dropped _ _ _ h]
    exact ih hdepth

namespace Json

variable (options : Options) (v : Json)

theorem block_layout (layout : NestedLayout) :
    v.block { options with nestedLayout := layout } =
      (v.block options).recast layout.blockKind := by
  rw [block, block, Block.ofMembers, Block.ofMembers, Block.recast, BlockKind.atDepth_succ,
    BlockKind.atDepth_succ, Member.recastAll_ofMembers]
  rfl

/-- The lines of a block differ in the kinds of the blocks inside it. -/
theorem forall₂_lines_layout (layout : NestedLayout) :
    List.Forall₂ (SameButKind options.nestedLayout.blockKind layout.blockKind)
      ((v.block options).lines 0) ((v.block { options with nestedLayout := layout }).lines 0) := by
  rw [Block.lines_eq, Block.lines_eq]
  refine .cons (Or.inl rfl) (List.rel_append ?_ (.cons (Or.inl rfl) .nil))
  rw [block, block, Block.ofMembers, Block.ofMembers, BlockKind.atDepth_succ,
    BlockKind.atDepth_succ]
  exact Member.forall₂_linesOfAll _ _ Nat.one_pos v.members

end Json

/-! ### The initializer of arrays -/

/-- Two lines that are the same, or that set an element of an array below the given root, each to
something of its own. -/
def SameButElement (root : String) (l l' : String) : Prop :=
  l = l' ∨ ∃ (address : Address) (x x' : Literal), address.index ≠ none ∧
    l = (⟨root ++ address.text, x⟩ : Assignment).line ∧
      l' = (⟨root ++ address.text, x'⟩ : Assignment).line

/-- What a leaf that is no element is set to does not depend on the initializer of arrays. -/
theorem Leaf.assignment_eq_of_index_eq_none (mode mode' : ArrayInitializer) (path : String)
    {l : Leaf} (h : l.index = none) : l.assignment mode' path = l.assignment mode path := by
  rw [assignment, assignment, literal, literal, h]

theorem Leaf.sameButElement (mode mode' : ArrayInitializer) (root : String) (l : Leaf) :
    SameButElement root (l.assignment mode root).line (l.assignment mode' root).line := by
  by_cases h : l.index = none
  · exact Or.inl (congrArg Assignment.line (assignment_eq_of_index_eq_none mode' mode root h))
  · exact Or.inr ⟨l.address, l.literal mode, l.literal mode', h, rfl, rfl⟩

/-! ### The name of the root -/

/-- Two assignments of one literal to one place, each below a root of its own. -/
def SameButPath (root root' : String) (a a' : Assignment) : Prop :=
  ∃ (address : Address) (x : Literal), address.names ≠ [] ∧
    a = ⟨root ++ address.text, x⟩ ∧ a' = ⟨root' ++ address.text, x⟩

/-- Two lines that are the same, or that close the outermost block, or that assign one literal to
one place, each with a root of its own. -/
def SameButRoot (root root' : String) (l l' : String) : Prop :=
  l = l' ∨ l = Member.closing 1 root ∧ l' = Member.closing 1 root' ∨
    ∃ a a', SameButPath root root' a a' ∧ l = a.line ∧ l' = a'.line

theorem Leaf.sameButPath (mode : ArrayInitializer) (root root' : String)
    {ms : List (String × Json)} {l : Leaf} (hl : l ∈ Json.leavesOf ms) :
    SameButPath root root' (l.assignment mode root) (l.assignment mode root') := by
  obtain ⟨key, -, keys, hkeys⟩ := Json.exists_key_of_mem_leavesOf hl
  refine ⟨l.address, l.literal mode, ?_, rfl, rfl⟩
  rw [address, hkeys]
  exact List.cons_ne_nil _ _

/-! ### Each option by itself -/

/-- **Each option changes only what it names.** For every document and all options:

* Another layout of nested objects leaves the assignments as they are, and gives the blocks below
  the outermost one another kind. The texts have as many lines and differ in the keywords of the
  lines that open nested blocks.
* Another initializer of arrays leaves the declaration and the targets as they are. Only what
  elements of arrays are set to may differ.
* Another name of the root changes the name of the outermost block and the front of every target. -/
theorem options_act_apart (options : Options) (v : Json) :
    (∀ layout : NestedLayout,
      let other := { options with nestedLayout := layout }
      v.assignments other = v.assignments options ∧
        v.block other = (v.block options).recast layout.blockKind ∧
        List.Forall₂ (SameButKind options.nestedLayout.blockKind layout.blockKind)
          (textLines (v.program options)) (textLines (v.program other))) ∧
    (∀ mode : ArrayInitializer,
      let other := { options with arrayInitializer := mode }
      v.block other = v.block options ∧
        (v.assignments other).map Assignment.target =
          (v.assignments options).map Assignment.target ∧
        List.Forall₂
          (fun c p ↦ p.1.target = (v.block options).name ++ c.address.text ∧
            (c.address.index = none → p.2 = p.1))
          (v.block options).cells ((v.assignments options).zip (v.assignments other)) ∧
        List.Forall₂ (SameButElement (v.block options).name)
          (textLines (v.program options)) (textLines (v.program other))) ∧
    ∀ root : String,
      let other := { options with rootName := root }
      v.block other = { v.block options with name := C.identifier root } ∧
        List.Forall₂ (SameButPath (v.block options).name (C.identifier root))
          (v.assignments options) (v.assignments other) ∧
        List.Forall₂ (SameButRoot (v.block options).name (C.identifier root))
          (textLines (v.program options)) (textLines (v.program other)) := by
  refine ⟨fun layout ↦ ⟨rfl, v.block_layout options layout, ?_⟩,
    fun mode ↦ ⟨rfl, ?_, ?_, ?_⟩, fun root ↦ ⟨rfl, ?_, ?_⟩⟩
  · refine v.forall₂_textLines (fun _ ↦ Or.inl rfl) (v.forall₂_lines_layout options layout) ?_
    exact List.forall₂_same.2 fun _ _ ↦ Or.inl rfl
  · rw [Json.assignments, Json.assignments, Assignment.ofMembers_eq_map_leaves,
      Assignment.ofMembers_eq_map_leaves, List.map_map, List.map_map]
    rfl
  · have hcells : (v.block options).cells = (Json.leavesOf v.members).map Leaf.cell :=
      Member.cellsOfAll_ofMembers _ v.members
    rw [hcells, Json.assignments, Json.assignments, Assignment.ofMembers_eq_map_leaves,
      Assignment.ofMembers_eq_map_leaves, List.zip_map', List.forall₂_map_left_iff,
      List.forall₂_map_right_iff, List.forall₂_same]
    exact fun l _ ↦ ⟨rfl, Leaf.assignment_eq_of_index_eq_none _ mode _⟩
  · refine v.forall₂_textLines (fun _ ↦ Or.inl rfl) ?_ ?_
    · exact List.forall₂_same.2 fun _ _ ↦ Or.inl rfl
    · exact v.forall₂_assignments fun l _ ↦ Leaf.sameButElement _ mode _ l
  · exact v.forall₂_assignments fun l hl ↦ Leaf.sameButPath _ _ _ hl
  · refine v.forall₂_textLines (fun _ ↦ Or.inl rfl) ?_ ?_
    · rw [Block.lines_eq, Block.lines_eq]
      refine .cons (Or.inl rfl) (List.rel_append ?_ (.cons (Or.inr (Or.inl ⟨rfl, rfl⟩)) .nil))
      exact List.forall₂_same.2 fun _ _ ↦ Or.inl rfl
    · exact v.forall₂_assignments fun l hl ↦
        Or.inr (Or.inr ⟨_, _, Leaf.sameButPath _ _ _ hl, rfl, rfl⟩)

end JsonEmbed
