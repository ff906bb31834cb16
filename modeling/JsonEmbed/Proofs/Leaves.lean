import JsonEmbed.Proofs.Collisions

/-!
# Leaves of a document

What fills the slots of a program are the leaves of its document: the scalars, and the elements of
the arrays that have an element tag. `Json.leavesOf` lists them in the order of the document, each
with the keys on the way to it and, in an array, its index.

Both walks over a document come down to this list. The slots that a declaration makes available are
the leaves' addresses, each declared with the tag of its own leaf (`cellsOfAll_ofMembers`): for an
element this is where the elements of an array having one tag comes in. The assignments are the
leaves' own as well, whatever array elements are set to (`ofMembers_eq_map_leaves`). So slots,
leaves and assignments can be read side by side, and what is true of one leaf is true all along
(`initializers_carry_leaves`).
-/

namespace JsonEmbed

/-! ### The leaves of a document -/

/-- A value that fills a slot, with the keys on the way to it, and its index in an array. -/
structure Leaf where
  keys : List String
  index : Option Nat
  value : Json

namespace Leaf

/-- The leaf one object further out. -/
def below (key : String) (l : Leaf) : Leaf :=
  { l with keys := key :: l.keys }

/-- The address of the slot that a leaf fills. -/
def address (l : Leaf) : Address :=
  ⟨l.keys.map C.identifier, l.index⟩

theorem address_below (key : String) (l : Leaf) :
    (l.below key).address = l.address.below (C.identifier key) :=
  rfl

/-- What the slot of a leaf is set to: an element to its index if that is asked for, and everything
else to its value. -/
def literal (mode : ArrayInitializer) (l : Leaf) : Literal :=
  match l.index with
  | some i => .ofElement mode i l.value
  | none => .ofJson l.value

/-- The assignment that sets the slot of a leaf. -/
def assignment (mode : ArrayInitializer) (path : String) (l : Leaf) : Assignment :=
  ⟨path ++ l.address.text, l.literal mode⟩

theorem literal_values (l : Leaf) : l.literal .values = .ofJson l.value := by
  obtain ⟨keys, index, value⟩ := l
  cases index <;> rfl

/-- The path of an object further in goes before the leaves as its key does. -/
theorem assignment_below (mode : ArrayInitializer) (path key : String) (l : Leaf) :
    (l.below key).assignment mode path =
      l.assignment mode (Assignment.memberPath path key) := by
  rw [assignment, assignment, address_below, Address.text_below, Assignment.memberPath,
    String.append_assoc, String.append_assoc, String.append_assoc]
  rfl

end Leaf

namespace Json

/-- The leaves of a value in order. What has no tag has none. -/
def leaves : Json → List Leaf
  | object ms => leavesOf ms
  | array xs =>
    match arrayTag xs with
    | .invalid => []
    | _ => xs.zipIdx.map fun x ↦ ⟨[], some x.2, x.1⟩
  | v =>
    match v.tag with
    | .invalid => []
    | _ => [⟨[], none, v⟩]
where
  /-- The leaves of the members of an object in order. -/
  leavesOf : List (String × Json) → List Leaf
    | [] => []
    | (key, v) :: rest => v.leaves.map (Leaf.below key) ++ leavesOf rest

section Equations

variable (key : String) (rest : List (String × Json))

/-- The leaves of the members of an object. -/
abbrev leavesOf (ms : List (String × Json)) : List Leaf :=
  leaves.leavesOf ms

theorem leavesOf_object (ms : List (String × Json)) :
    leavesOf ((key, .object ms) :: rest) =
      (leavesOf ms).map (Leaf.below key) ++ leavesOf rest :=
  rfl

theorem leavesOf_array {xs : List Json} {t : Tag} (h : arrayTag xs = .list t) :
    leavesOf ((key, .array xs) :: rest) =
      (xs.zipIdx.map fun x ↦ ⟨[key], some x.2, x.1⟩) ++ leavesOf rest := by
  rw [leavesOf, leaves.leavesOf, leaves, h, List.map_map]
  rfl

theorem leavesOf_scalar {v : Json} {t : Tag} (h : v.scalarTag? = some t) :
    leavesOf ((key, v) :: rest) = ⟨[key], none, v⟩ :: leavesOf rest := by
  have hv := tag_ne_invalid_of_scalarTag? h
  cases v with
  | null | array | object => simp [scalarTag?] at h
  | boolean | string => rfl
  | number n =>
    rw [leavesOf, leaves.leavesOf, leaves]
    · split
      · contradiction
      · rfl
    · simp
    · simp

theorem leavesOf_dropped {v : Json} (h : v.tag = .invalid) :
    leavesOf ((key, v) :: rest) = leavesOf rest := by
  cases v with
  | object | boolean | string => exact absurd h (by simp [tag])
  | null => rfl
  | array xs => rw [leavesOf, leaves.leavesOf, leaves, show arrayTag xs = _ from h]; rfl
  | number n => rcases numberTag_cases n with hn | hn <;> simp [tag, hn] at h

end Equations

/-- Every leaf is a scalar. -/
theorem exists_scalarTag?_of_mem_leavesOf {ms : List (String × Json)} {l : Leaf}
    (hl : l ∈ leavesOf ms) : ∃ t, l.value.scalarTag? = some t := by
  induction ms using membersInduction generalizing l with
  | nil => exact absurd hl List.not_mem_nil
  | object key ms rest ih ihrest =>
    rw [leavesOf_object, List.mem_append] at hl
    rcases hl with hl | hl
    · obtain ⟨k, hk, rfl⟩ := List.mem_map.1 hl
      exact ih (l := k) hk
    · exact ihrest hl
  | array key xs t rest h ih =>
    rw [leavesOf_array _ _ h, List.mem_append] at hl
    rcases hl with hl | hl
    · obtain ⟨x, hx, rfl⟩ := List.mem_map.1 hl
      have hmem : x.1 ∈ xs := List.fst_mem_of_mem_zipIdx hx
      rcases arrayTag_eq_list_iff.1 h with ⟨rfl, -⟩ | ⟨-, hall⟩
      · exact absurd hmem List.not_mem_nil
      · exact ⟨t, hall _ hmem⟩
    · exact ih hl
  | scalar key v t rest h ih =>
    rw [leavesOf_scalar _ _ h, List.mem_cons] at hl
    rcases hl with rfl | hl
    · exact ⟨t, h⟩
    · exact ih hl
  | dropped key v rest h ih =>
    rw [leavesOf_dropped _ _ h] at hl
    exact ih hl

end Json

/-! ### Where leaves are found -/

namespace Json

/-- The value that keys lead to and, in an array, an index. -/
def at? : List String → Option Nat → Json → Option Json
  | [], none, v => some v
  | [], some i, array xs => xs[i]?
  | key :: keys, i, object ms => (ms.lookup key).bind (at? keys i)
  | _, _, _ => none

/-- The keys to a leaf begin with one of its object. -/
theorem exists_key_of_mem_leavesOf {ms : List (String × Json)} {l : Leaf}
    (hl : l ∈ leavesOf ms) : ∃ key ∈ ms.map Prod.fst, ∃ keys, l.keys = key :: keys := by
  induction ms with
  | nil => exact absurd hl List.not_mem_nil
  | cons m rest ih =>
    rcases List.mem_append.1 hl with hl | hl
    · obtain ⟨k, -, rfl⟩ := List.mem_map.1 hl
      exact ⟨m.1, List.mem_cons_self, k.keys, rfl⟩
    · obtain ⟨key, hkey, hkeys⟩ := ih hl
      exact ⟨key, List.mem_cons_of_mem m.1 hkey, hkeys⟩

/-- What is found in an object for the keys of a leaf of a later member. -/
theorem at?_cons_of_mem_leavesOf {m : String × Json} {rest : List (String × Json)} {l : Leaf}
    (hm : m.1 ∉ rest.map Prod.fst) (hl : l ∈ leavesOf rest) :
    (object (m :: rest)).at? l.keys l.index = (object rest).at? l.keys l.index := by
  obtain ⟨key, hkey, keys, hkeys⟩ := exists_key_of_mem_leavesOf hl
  have hne : (key == m.1) = false := by
    rw [beq_eq_false_iff_ne]
    rintro rfl
    exact hm hkey
  rw [hkeys, at?, at?, List.lookup_cons, hne]

/-- **A leaf is what its keys and its index lead to**, if no object has a key twice. -/
theorem at?_of_mem_leavesOf {ms : List (String × Json)} (h : (ms.map Prod.fst).Nodup)
    (hlevels : ∀ level ∈ levels.levelsOf ms, (level.map Prod.fst).Nodup) {l : Leaf}
    (hl : l ∈ leavesOf ms) : (object ms).at? l.keys l.index = some l.value := by
  induction ms using membersInduction generalizing l with
  | nil => exact absurd hl List.not_mem_nil
  | object key ms rest ih ihrest =>
    obtain ⟨hkey, hrest⟩ := List.nodup_cons.1 h
    have hinner : ∀ level ∈ ms :: levels.levelsOf ms, (level.map Prod.fst).Nodup :=
      fun level hlevel ↦ hlevels level (List.mem_append_left _ hlevel)
    have houter : ∀ level ∈ levels.levelsOf rest, (level.map Prod.fst).Nodup :=
      fun level hlevel ↦ hlevels level (List.mem_append_right _ hlevel)
    rw [leavesOf_object, List.mem_append] at hl
    rcases hl with hl | hl
    · obtain ⟨k, hk, rfl⟩ := List.mem_map.1 hl
      obtain ⟨hms, hdeeper⟩ := List.forall_mem_cons.1 hinner
      rw [Leaf.below, at?, List.lookup_cons, beq_self_eq_true]
      exact ih hms hdeeper hk
    · rw [at?_cons_of_mem_leavesOf hkey hl]
      exact ihrest hrest houter hl
  | array key xs t rest ht ih =>
    obtain ⟨hkey, hrest⟩ := List.nodup_cons.1 h
    rw [leavesOf_array _ _ ht, List.mem_append] at hl
    rcases hl with hl | hl
    · obtain ⟨⟨x, i⟩, hx, rfl⟩ := List.mem_map.1 hl
      rw [at?, List.lookup_cons, beq_self_eq_true]
      exact List.mk_mem_zipIdx_iff_getElem?.1 hx
    · rw [at?_cons_of_mem_leavesOf hkey hl]
      exact ih hrest hlevels hl
  | scalar key v t rest ht ih =>
    obtain ⟨hkey, hrest⟩ := List.nodup_cons.1 h
    rw [leavesOf_scalar _ _ ht, List.mem_cons] at hl
    rcases hl with rfl | hl
    · rw [at?, List.lookup_cons, beq_self_eq_true]
      rfl
    · rw [at?_cons_of_mem_leavesOf hkey hl]
      exact ih hrest (fun level hlevel ↦ hlevels level (List.mem_append_right _ hlevel)) hl
  | dropped key v rest ht ih =>
    obtain ⟨hkey, hrest⟩ := List.nodup_cons.1 h
    rw [leavesOf_dropped _ _ ht] at hl
    rw [at?_cons_of_mem_leavesOf hkey hl]
    exact ih hrest (fun level hlevel ↦ hlevels level (List.mem_append_right _ hlevel)) hl

end Json

/-! ### Slots with their tags -/

/-- The tag of one element of an array member; a tag that is no array's counts as its own. -/
def Tag.element : Tag → Tag
  | list element => element
  | tag => tag

/-- A declared slot: its address, and the tag that it is declared with. -/
structure Cell where
  address : Address
  tag : Tag
  deriving DecidableEq

namespace Cell

/-- The cell one block further out. -/
def below (n : String) (c : Cell) : Cell :=
  { c with address := c.address.below n }

end Cell

namespace Member

/-- The slots of a member with their tags. The elements of an array have its element tag. -/
def cells : Member → List Cell
  | scalar n t => [⟨⟨[n], none⟩, t⟩]
  | array n t length =>
    (List.range length).map fun i ↦ ⟨⟨[n], some i⟩, t.element⟩
  | nested n _ _ _ ms => (cellsOfAll ms).map (Cell.below n)
where
  /-- The slots of several members with their tags. -/
  cellsOfAll : List Member → List Cell
    | [] => []
    | m :: ms => m.cells ++ cellsOfAll ms

/-- The slots without their tags. -/
theorem map_address_cellsOfAll (ms : List Member) :
    (cells.cellsOfAll ms).map Cell.address = addresses.addressesOfAll ms := by
  induction ms using listInduction with
  | nil => rfl
  | scalar n t rest ih =>
    rw [cells.cellsOfAll, addresses.addressesOfAll, List.map_append, ih]
    rfl
  | array n t length rest ih =>
    rw [cells.cellsOfAll, addresses.addressesOfAll, List.map_append, ih, cells, addresses,
      List.map_map]
    rfl
  | nested n t kind blockName ms rest ih ihrest =>
    rw [cells.cellsOfAll, addresses.addressesOfAll, List.map_append, ihrest, cells, addresses,
      ← ih, List.map_map, List.map_map]
    rfl

end Member

namespace Leaf

/-- The slot of a leaf, with the leaf's tag. -/
def cell (l : Leaf) : Cell :=
  ⟨l.address, l.value.tag⟩

/-- The cells of elements are counted alike from both sides. -/
theorem map_cell_elements (key : String) {xs : List Json} {t : Tag}
    (h : Json.arrayTag xs = .list t) :
    ((xs.zipIdx.map fun x ↦ (⟨[key], some x.2, x.1⟩ : Leaf)).map cell) =
      (List.range xs.length).map fun i ↦ ⟨⟨[C.identifier key], some i⟩, t⟩ := by
  have helement : ∀ x ∈ xs.zipIdx, cell ⟨[key], some x.2, x.1⟩ =
      ⟨⟨[C.identifier key], some x.2⟩, t⟩ := by
    intro x hx
    rcases Json.arrayTag_eq_list_iff.1 h with ⟨rfl, -⟩ | ⟨-, hall⟩
    · exact absurd (List.fst_mem_of_mem_zipIdx hx) List.not_mem_nil
    · rw [cell, Json.tag_of_scalarTag? (hall _ (List.fst_mem_of_mem_zipIdx hx))]
      rfl
  rw [List.map_map, List.range_eq_range', ← List.zipIdx_map_snd 0 xs, List.map_map]
  exact List.map_congr_left helement

end Leaf

/-! ### Both walks come down to the leaves -/

/-- The slots of a declaration are those of the leaves, declared with the tags of the leaves. -/
theorem Member.cellsOfAll_ofMembers (below : BlockKind) (ms : List (String × Json)) :
    cells.cellsOfAll (ofMembers below ms) = (Json.leavesOf ms).map Leaf.cell := by
  induction ms using Json.membersInduction with
  | nil => rfl
  | object key ms rest ih ihrest =>
    rw [ofMembers_object, Json.leavesOf_object, cells.cellsOfAll, cells, ih, ihrest,
      List.map_append, List.map_map, List.map_map]
    rfl
  | array key xs t rest h ih =>
    rw [ofMembers_array _ _ _ h, Json.leavesOf_array _ _ h, cells.cellsOfAll, cells, ih,
      List.map_append, Leaf.map_cell_elements key h]
    rfl
  | scalar key v t rest h ih =>
    rw [ofMembers_scalar _ _ _ h, Json.leavesOf_scalar _ _ h, cells.cellsOfAll, cells, ih,
      List.map_cons, Leaf.cell, Json.tag_of_scalarTag? h]
    rfl
  | dropped key v rest h ih =>
    rw [ofMembers_dropped _ _ _ h, Json.leavesOf_dropped _ _ h, ih]

namespace Assignment

/-- The elements of an array are assigned as leaves. -/
theorem ofElements_eq_map (mode : ArrayInitializer) (path key : String) (i : Nat)
    (xs : List Json) :
    ofElements mode (memberPath path key) i xs =
      ((xs.zipIdx i).map fun x ↦ (⟨[key], some x.2, x.1⟩ : Leaf)).map
        (Leaf.assignment mode path) := by
  induction xs generalizing i with
  | nil => rfl
  | cons x xs ih =>
    have hhead : (⟨elementPath (memberPath path key) i, .ofElement mode i x⟩ : Assignment) =
        Leaf.assignment mode path ⟨[key], some i, x⟩ := by
      have htarget : elementPath (memberPath path key) i =
          path ++ (Leaf.address ⟨[key], some i, x⟩).text := by
        simp [elementPath, memberPath, Leaf.address, Address.text, Address.namesText,
          Address.indexText, String.append_assoc]
      rw [htarget]
      rfl
    rw [ofElements, ih, hhead]
    rfl

/-- The assignments for an object are those of its leaves. -/
theorem ofMembers_eq_map_leaves (mode : ArrayInitializer) (path : String)
    (ms : List (String × Json)) :
    ofMembers mode path ms = (Json.leavesOf ms).map (Leaf.assignment mode path) := by
  induction ms using Json.membersInduction generalizing path with
  | nil => rfl
  | object key ms rest ih ihrest =>
    rw [ofMembers_object, Json.leavesOf_object, ih, ihrest, List.map_append, List.map_map]
    congr 1
    exact List.map_congr_left fun l _ ↦ (l.assignment_below mode path key).symm
  | array key xs t rest h ih =>
    rw [ofMembers_array _ _ _ _ h, Json.leavesOf_array _ _ h, ih, List.map_append,
      ofElements_eq_map]
  | scalar key v t rest h ih =>
    have hhead : (⟨memberPath path key, .ofJson v⟩ : Assignment) =
        Leaf.assignment mode path ⟨[key], none, v⟩ := by
      have htarget : memberPath path key = path ++ (Leaf.address ⟨[key], none, v⟩).text := by
        simp [memberPath, Leaf.address, Address.text, Address.namesText, Address.indexText,
          String.append_assoc]
      rw [htarget]
      rfl
    rw [ofMembers_scalar _ _ _ _ h, Json.leavesOf_scalar _ _ h, ih, List.map_cons, hhead]
  | dropped key v rest h ih =>
    rw [ofMembers_dropped _ _ _ _ h, Json.leavesOf_dropped _ _ h, ih]

end Assignment

/-! ### Slots, leaves and assignments side by side -/

/-- The literals that carry a value and are of the kind of a tag. -/
inductive Literal.Carries : Tag → Json → Literal → Prop
  | int (n : Number) (h : n.tag = .int) : Carries .int (.number n) (.number n.cText)
  | float (n : Number) (h : n.tag = .float) : Carries .float (.number n) (.number n.cText)
  | boolean (b : Bool) : Carries .boolean (.boolean b) (.boolean b)
  | string (s : String) : Carries .string (.string s) (.string s)

/-- The literal of a scalar carries it and is of the kind of its tag. -/
theorem Literal.carries_ofJson {v : Json} {t : Tag} (h : v.scalarTag? = some t) :
    Carries t v (ofJson v) := by
  cases v with
  | null | array | object => simp [Json.scalarTag?] at h
  | boolean b =>
    obtain rfl : Tag.boolean = t := Option.some.inj h
    exact .boolean b
  | string s =>
    obtain rfl : Tag.string = t := Option.some.inj h
    exact .string s
  | number n =>
    obtain rfl : n.tag = t := Option.some.inj h
    rcases Json.numberTag_cases n with hn | hn
    · rw [hn]
      exact .int n hn
    · rw [hn]
      exact .float n hn

theorem Literal.Carries.ne_null {t : Tag} {v : Json} {l : Literal} (h : Carries t v l) :
    l ≠ .null := by
  cases h <;> exact Literal.noConfusion

/-- Such a literal is the one of the value. -/
theorem Literal.Carries.eq_ofJson {t : Tag} {v : Json} {l : Literal} (h : Carries t v l) :
    l = ofJson v := by
  cases h <;> rfl

/-- What is assigned to a leaf is not null. -/
theorem Leaf.literal_ne_null (mode : ArrayInitializer) {l : Leaf} {t : Tag}
    (h : l.value.scalarTag? = some t) : l.literal mode ≠ .null := by
  have hvalue : Literal.ofJson l.value ≠ .null := (Literal.carries_ofJson h).ne_null
  obtain ⟨keys, index, value⟩ := l
  rcases index with - | i
  · exact hvalue
  · cases mode with
    | values => exact hvalue
    | indices => exact Literal.noConfusion

/-- The slots of a block with their tags. -/
def Block.cells (b : Block) : List Cell :=
  Member.cells.cellsOfAll b.members

/-- An assignment sets the slot of a leaf to the value of the leaf, by a literal of the kind that
the slot is declared with. -/
structure Initializes (path : String) (c : Cell) (l : Leaf) (a : Assignment) : Prop where
  address : c.address = l.address
  target : a.target = path ++ c.address.text
  value : Literal.Carries c.tag l.value a.value

/-- An assignment sets an element to its index, and everything else as another one does. -/
def SetsIndex (c : Cell) (a b : Assignment) : Prop :=
  b.target = a.target ∧
    match c.address.index with
    | some i => b.value = .number (Nat.repr i)
    | none => b.value = a.value

/-- **Every slot is set to its leaf, by a literal of the kind that it is declared with.** When array
elements are set to their values, the slots, the leaves and the assignments belong together one by
one. When they are set to their indices, the assignments to other slots stay as they are. Nothing
is ever set to null. And a leaf is what is found at its place, if no object has a key twice. -/
theorem initializers_carry_leaves (options : Options) (depth : Nat) (name path : String)
    (ms : List (String × Json)) :
    let b := Block.ofMembers options depth name ms
    let leaves := Json.leavesOf ms
    let values := Assignment.ofMembers .values path ms
    let indices := Assignment.ofMembers .indices path ms
    b.slots path = b.cells.map (fun c ↦ path ++ c.address.text) ∧
      leaves.length = values.length ∧ values.length = indices.length ∧
      List.Forall₂ (fun c p ↦ Initializes path c p.1 p.2) b.cells (leaves.zip values) ∧
      List.Forall₂ (fun c p ↦ SetsIndex c p.1 p.2) b.cells (values.zip indices) ∧
      (∀ mode, Literal.null ∉ (Assignment.ofMembers mode path ms).map Assignment.value) ∧
      ((∀ level ∈ (Json.object ms).levels, (level.map Prod.fst).Nodup) →
        ∀ l ∈ leaves, (Json.object ms).at? l.keys l.index = some l.value) := by
  intro b leaves values indices
  have hcells : b.cells = leaves.map Leaf.cell := Member.cellsOfAll_ofMembers _ ms
  have hvalues : values = leaves.map (Leaf.assignment .values path) :=
    Assignment.ofMembers_eq_map_leaves _ path ms
  have hindices : indices = leaves.map (Leaf.assignment .indices path) :=
    Assignment.ofMembers_eq_map_leaves _ path ms
  have hleaves : ∀ l ∈ leaves, ∃ t, l.value.scalarTag? = some t :=
    fun _ ↦ Json.exists_scalarTag?_of_mem_leavesOf
  refine ⟨?_, by simp [hvalues], by simp [hvalues, hindices], ?_, ?_, fun mode hnull ↦ ?_,
    fun hlevels l hl ↦ ?_⟩
  · rw [Block.slots, Member.slotsOfAll_eq_map, ← Member.map_address_cellsOfAll, List.map_map]
    rfl
  · rw [hcells, hvalues, ← List.map_prod_left_eq_zip, List.forall₂_map_left_iff,
      List.forall₂_map_right_iff, List.forall₂_same]
    intro l hl
    obtain ⟨t, ht⟩ := hleaves l hl
    refine ⟨rfl, rfl, ?_⟩
    rw [Leaf.assignment, Leaf.literal_values, Leaf.cell, Json.tag_of_scalarTag? ht]
    exact Literal.carries_ofJson ht
  · rw [hcells, hvalues, hindices, List.zip_map', List.forall₂_map_left_iff,
      List.forall₂_map_right_iff, List.forall₂_same]
    rintro ⟨keys, index, value⟩ -
    cases index <;> exact ⟨rfl, rfl⟩
  · rw [Assignment.ofMembers_eq_map_leaves, List.map_map] at hnull
    obtain ⟨l, hl, hlnull⟩ := List.mem_map.1 hnull
    obtain ⟨t, ht⟩ := hleaves l hl
    exact Leaf.literal_ne_null mode ht hlnull
  · obtain ⟨hms, hdeeper⟩ := List.forall_mem_cons.1 hlevels
    exact Json.at?_of_mem_leavesOf hms hdeeper hl

/-- Elements of an array next to a scalar in an object of its own, and a null that has no slot. -/
theorem initializers_carry_leaves_mixed :
    let ms : List (String × Json) := [("a", .array [.string "x", .string "y"]), ("n", .null),
      ("b", .object [("c d", .boolean true)])]
    (∀ level ∈ (Json.object ms).levels, (level.map Prod.fst).Nodup) ∧
      (Json.object ms).at? ["a"] (some 1) = some (.string "y") ∧
      (Json.object ms).at? ["b", "c d"] none = some (.boolean true) := by
  intro ms
  have hlevels : ∀ level ∈ (Json.object ms).levels, (level.map Prod.fst).Nodup := by decide
  have hfound := (initializers_carry_leaves {} 0 "r" "r" ms).2.2.2.2.2.2 hlevels
  exact ⟨hlevels, hfound ⟨["a"], some 1, .string "y"⟩ (List.mem_cons_of_mem _ List.mem_cons_self),
    hfound ⟨["b", "c d"], none, .boolean true⟩
      (List.mem_cons_of_mem _ (List.mem_cons_of_mem _ List.mem_cons_self))⟩

end JsonEmbed
