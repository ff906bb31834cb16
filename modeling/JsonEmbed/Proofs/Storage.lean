import JsonEmbed.Proofs.Leaves

/-!
# What memory holds after a run

The members of a union share one storage region. So to assign a slot destroys every slot whose way
parts from the way of that slot in a union, and a program keeps its document only if no later
assignment destroys what an earlier one has set.

A run sets the slots of a declaration in order, each of them once. What it leaves at a slot depends
on the slots after it alone: `run_of_not_mem` says so, and `forall_run_eq_iff_pairwise` turns it
into a property of the list of slots, that none overlaps a later one. The tree decides this
property block by block (`apart_addressesOfAll_iff`): slots of two members of a union overlap, so a
union may have one member with slots, and slots of two members of a structure never do.

With structures throughout, nothing is lost. With unions, nothing is lost if and only if no nested
block has two members with slots (`keeps_iff_layout`).
-/

namespace JsonEmbed

/-! ### Slots that share storage -/

namespace Member

/-- The kind of the block in which two ways through members part. Ways that part in no block, as
those to two elements of one array, have none. -/
def parting (kind : BlockKind) (ms : List Member) : List String → List String → Option BlockKind
  | n :: ns, k :: ks =>
    if n = k then
      match ms.find? fun m ↦ m.name == n with
      | some (nested _ _ inner _ members) => parting inner members ns ks
      | _ => none
    else some kind
  | _, _ => none

/-- The members that have a slot. -/
def occupied (ms : List Member) : List Member :=
  ms.filter fun m ↦ m.addresses ≠ []

section Parting

variable {kind : BlockKind} {m : Member} {ms : List Member}

/-- Ways to two members part in their block. -/
theorem parting_of_ne {n k : String} (h : n ≠ k) (ns ks : List String) :
    parting kind ms (n :: ns) (k :: ks) = some kind := by
  rw [parting, if_neg h]

/-- A way to a later member does not meet the first one. -/
theorem parting_cons_of_ne {n : String} (h : m.name ≠ n) (ns ks : List String) :
    parting kind (m :: ms) (n :: ns) ks = parting kind ms (n :: ns) ks := by
  rcases ks with - | ⟨k, ks⟩
  · rfl
  · rw [parting, parting, List.find?_cons_of_neg (by simpa using h)]

/-- Ways to one member part where they do so below it. -/
theorem parting_nested (n : String) (t : Tag) (inner : BlockKind) (blockName : String)
    (members : List Member) (ns ks : List String) :
    parting kind (nested n t inner blockName members :: ms) (n :: ns) (n :: ks) =
      parting inner members ns ks := by
  rw [parting, if_pos rfl, List.find?_cons_of_pos (by simp [name])]

/-- Ways to the elements of one array part in no block. -/
theorem parting_array (n : String) (t : Tag) (length : Nat) (ns ks : List String) :
    parting kind (array n t length :: ms) (n :: ns) (n :: ks) = none := by
  rw [parting, if_pos rfl, List.find?_cons_of_pos (by simp [name])]

end Parting

theorem occupied_eq_nil_iff (ms : List Member) :
    occupied ms = [] ↔ addresses.addressesOfAll ms = [] := by
  induction ms with
  | nil => exact ⟨fun _ ↦ rfl, fun _ ↦ rfl⟩
  | cons m ms ih =>
    rw [addresses.addressesOfAll, List.append_eq_nil_iff, ← ih, occupied, List.filter_cons]
    by_cases h : m.addresses = []
    · simp [h, occupied]
    · simp [h]

/-- One member at most has a slot if that is so of the later members, and the first one or all of
them have none. -/
theorem length_occupied_cons_le_one_iff {m : Member} {ms : List Member} :
    (occupied (m :: ms)).length ≤ 1 ↔
      (occupied ms).length ≤ 1 ∧ (m.addresses = [] ∨ addresses.addressesOfAll ms = []) := by
  rw [← occupied_eq_nil_iff ms, ← List.length_eq_zero_iff (l := occupied ms)]
  by_cases h : m.addresses = []
  · simp [occupied, h]
  · have hcons : (occupied (m :: ms)).length = (occupied ms).length + 1 := by
      simp [occupied, h]
    rw [hcons]
    simp only [h, false_or]
    omega

/-! ### Unions with one occupied member -/

/-- Slots in order, none of which overlaps a later one. -/
def Apart (kind : BlockKind) (ms : List Member) (slots : List Address) : Prop :=
  slots.Pairwise fun s t ↦ parting kind ms t.names s.names ≠ some .union

/-- The slots of the members of a block are apart if those of each member are, and, in a union, if
one member at most has any. -/
theorem apart_addressesOfAll_cons {kind : BlockKind} {m : Member} {ms : List Member}
    (hname : m.name ∉ ms.map name) :
    Apart kind (m :: ms) (addresses.addressesOfAll (m :: ms)) ↔
      Apart kind (m :: ms) m.addresses ∧ Apart kind ms (addresses.addressesOfAll ms) ∧
        (kind = .union → m.addresses = [] ∨ addresses.addressesOfAll ms = []) := by
  have hlater : ∀ t ∈ addresses.addressesOfAll ms, ∃ k ks, t.names = k :: ks ∧ m.name ≠ k := by
    intro t ht
    obtain ⟨k, hk, hhead⟩ := exists_name_of_mem_addressesOfAll ht
    obtain ⟨ks, hks⟩ := List.head?_eq_some_iff.1 hhead
    exact ⟨k.name, ks, hks, fun h ↦ hname (h ▸ List.mem_map_of_mem hk)⟩
  have hrest : Apart kind (m :: ms) (addresses.addressesOfAll ms) ↔
      Apart kind ms (addresses.addressesOfAll ms) := by
    refine List.Pairwise.iff_of_mem fun {s t} _ ht ↦ ?_
    obtain ⟨k, ks, hks, hk⟩ := hlater t ht
    rw [hks, parting_cons_of_ne hk]
  have hcross : (∀ s ∈ m.addresses, ∀ t ∈ addresses.addressesOfAll ms,
      parting kind (m :: ms) t.names s.names ≠ some .union) ↔
      (kind = .union → m.addresses = [] ∨ addresses.addressesOfAll ms = []) := by
    have hkind : ∀ s ∈ m.addresses, ∀ t ∈ addresses.addressesOfAll ms,
        parting kind (m :: ms) t.names s.names = some kind := by
      intro s hs t ht
      obtain ⟨k, ks, hks, hk⟩ := hlater t ht
      obtain ⟨ns, hns⟩ := List.head?_eq_some_iff.1 (head?_names_of_mem_addresses hs)
      rw [hks, hns, parting_of_ne hk.symm]
    constructor
    · rintro h rfl
      by_contra hboth
      obtain ⟨hm, hms⟩ := not_or.1 hboth
      obtain ⟨s, hs⟩ := List.exists_mem_of_ne_nil _ hm
      obtain ⟨t, ht⟩ := List.exists_mem_of_ne_nil _ hms
      exact h s hs t ht (hkind s hs t ht)
    · intro h s hs t ht hunion
      rw [hkind s hs t ht] at hunion
      rcases h (Option.some.inj hunion) with hm | hms
      · exact absurd (hm ▸ hs) List.not_mem_nil
      · exact absurd (hms ▸ ht) List.not_mem_nil
  rw [Apart, addresses.addressesOfAll, List.pairwise_append, hcross]
  exact and_congr_right fun _ ↦ and_congr_left fun _ ↦ hrest

/-- The slots of a block are apart as its unions say, if those of the first member are and those of
the later ones. -/
theorem apart_cons_iff {kind below : BlockKind} {m : Member} {ms : List Member}
    (hname : m.name ∉ ms.map name)
    (hm : Apart kind (m :: ms) m.addresses ↔
      (below = .union → ∀ inner ∈ m.blocks, (occupied inner).length ≤ 1))
    (hms : Apart kind ms (addresses.addressesOfAll ms) ↔
      (kind = .union → (occupied ms).length ≤ 1) ∧
        (below = .union → ∀ inner ∈ blocks.blocksOfAll ms, (occupied inner).length ≤ 1)) :
    Apart kind (m :: ms) (addresses.addressesOfAll (m :: ms)) ↔
      (kind = .union → (occupied (m :: ms)).length ≤ 1) ∧
        (below = .union → ∀ inner ∈ blocks.blocksOfAll (m :: ms), (occupied inner).length ≤ 1) := by
  rw [apart_addressesOfAll_cons hname, hm, hms, length_occupied_cons_le_one_iff,
    blocks.blocksOfAll, List.forall_mem_append, imp_and, imp_and]
  constructor
  · rintro ⟨hm, ⟨hms, hdeeper⟩, hcross⟩
    exact ⟨⟨hms, hcross⟩, hm, hdeeper⟩
  · rintro ⟨⟨hms, hcross⟩, hm, hdeeper⟩
    exact ⟨hm, ⟨hms, hdeeper⟩, hcross⟩

/-- **No slot overlaps a later one if and only if every union has one member with slots at
most.** -/
theorem apart_addressesOfAll_iff {kind below : BlockKind} {ms : List Member}
    (hms : WellFormed.allWellFormed below ms) (h : (ms.map name).Nodup)
    (hblocks : ∀ b ∈ blocks.blocksOfAll ms, (b.map name).Nodup) :
    Apart kind ms (addresses.addressesOfAll ms) ↔
      (kind = .union → (occupied ms).length ≤ 1) ∧
        (below = .union → ∀ inner ∈ blocks.blocksOfAll ms, (occupied inner).length ≤ 1) := by
  induction ms using listInduction generalizing kind with
  | nil => simp [Apart, addresses.addressesOfAll, occupied, blocks.blocksOfAll]
  | scalar n t rest ih =>
    obtain ⟨hname, hrest⟩ := List.nodup_cons.1 h
    have hslots : Apart kind (scalar n t :: rest) (scalar n t).addresses :=
      List.pairwise_singleton _ _
    exact apart_cons_iff hname (iff_of_true hslots fun _ inner hinner ↦ absurd hinner
      List.not_mem_nil) (ih hms.2 hrest hblocks)
  | array n t length rest ih =>
    obtain ⟨hname, hrest⟩ := List.nodup_cons.1 h
    have hslots : Apart kind (array n t length :: rest) (array n t length).addresses := by
      refine List.pairwise_map.2 (List.pairwise_of_forall fun i j ↦ ?_)
      rw [parting_array]
      exact (Option.some_ne_none _).symm
    exact apart_cons_iff hname (iff_of_true hslots fun _ inner hinner ↦ absurd hinner
      List.not_mem_nil) (ih hms.2 hrest hblocks)
  | nested n t inner blockName ms rest ih ihrest =>
    obtain ⟨hname, hrest⟩ := List.nodup_cons.1 h
    obtain ⟨⟨-, -, rfl, -, hmembers⟩, hwell⟩ := hms
    have hinner : ∀ b ∈ ms :: blocks.blocksOfAll ms, (b.map name).Nodup :=
      fun b hb ↦ hblocks b (List.mem_append_left _ hb)
    have houter : ∀ b ∈ blocks.blocksOfAll rest, (b.map name).Nodup :=
      fun b hb ↦ hblocks b (List.mem_append_right _ hb)
    obtain ⟨hnames, hdeeper⟩ := List.forall_mem_cons.1 hinner
    -- ways to slots of the inner block part where they do so in it
    have hslots : Apart kind (nested n t inner blockName ms :: rest)
        (nested n t inner blockName ms).addresses ↔
        Apart inner ms (addresses.addressesOfAll ms) := by
      rw [Apart, addresses, List.pairwise_map]
      simp only [Address.below, parting_nested]
      rfl
    refine apart_cons_iff hname ?_ (ihrest hwell hrest houter)
    rw [hslots, ih hmembers hnames hdeeper, ← imp_and, blocks, List.forall_mem_cons]

end Member

/-! ### Runs -/

/-- What each slot holds. A slot that has been destroyed holds nothing. -/
abbrev Memory := Address → Option Literal

namespace Block

/-- The addresses of the slots of a block. -/
def addresses (b : Block) : List Address :=
  Member.addresses.addressesOfAll b.members

/-- Two slots share storage: the ways to them part in a union. -/
def Overlap (b : Block) (s t : Address) : Prop :=
  Member.parting b.kind b.members s.names t.names = some .union

instance (b : Block) (s t : Address) : Decidable (b.Overlap s t) :=
  inferInstanceAs (Decidable (_ = _))

/-- To assign a slot sets it and destroys every other slot that shares storage with it. -/
def assign (b : Block) (m : Memory) (s : Address) (l : Literal) : Memory := fun t ↦
  if t = s then some l else if b.Overlap s t then none else m t

/-- The slot that a target names. -/
def locate? (b : Block) (path target : String) : Option Address :=
  b.addresses.find? fun s ↦ path ++ s.text == target

/-- What an assignment does to memory. -/
def execute (b : Block) (path : String) (m : Memory) (a : Assignment) : Memory :=
  match b.locate? path a.target with
  | some s => b.assign m s a.value
  | none => m

/-- What assignments do to memory one after the other. -/
def run (b : Block) (path : String) (m : Memory) (assignments : List Assignment) : Memory :=
  assignments.foldl (b.execute path) m

/-- Every slot of a block holds the value of its leaf, in a literal of its kind. -/
def Keeps (b : Block) (leaves : List Leaf) (m : Memory) : Prop :=
  List.Forall₂ (fun s l ↦ s = l.address ∧
    ∃ c, m s = some c ∧ Literal.Carries l.value.tag l.value c) b.addresses leaves

/-! ### Steps -/

variable {b : Block} {below : BlockKind} {path : String} {mode : ArrayInitializer}

/-- The target of an assignment names the slot that it was made for. -/
theorem locate?_text (hb : b.WellFormed below) {s : Address} (hs : s ∈ b.addresses) :
    b.locate? path (path ++ s.text) = some s := by
  have hsome : (b.locate? path (path ++ s.text)).isSome = true :=
    List.find?_isSome.2 ⟨s, hs, beq_self_eq_true _⟩
  obtain ⟨t, ht⟩ := Option.isSome_iff_exists.1 hsome
  have htext : path ++ t.text = path ++ s.text := by
    simpa using List.find?_some ht
  have hnames := fun {u : Address} (hu : u ∈ b.addresses) ↦
    Member.isName_of_mem_addressesOfAll hb.2 hu
  rw [ht, Address.text_injective (hnames (List.mem_of_find?_eq_some ht)) (hnames hs)
    ((String.append_right_inj _).1 htext)]

/-- The assignment of a leaf assigns the slot of the leaf. -/
theorem execute_assignment (hb : b.WellFormed below) {l : Leaf} (hl : l.address ∈ b.addresses)
    (m : Memory) :
    b.execute path m (l.assignment mode path) = b.assign m l.address (l.literal mode) := by
  rw [execute, Leaf.assignment, locate?_text hb hl]

/-- **What assignments to other slots leave of a slot.** It is destroyed if one of them shares its
storage, and else it is as it was. -/
theorem run_of_not_mem (hb : b.WellFormed below) {ls : List Leaf}
    (hls : ∀ l ∈ ls, l.address ∈ b.addresses) {s : Address} (hs : s ∉ ls.map Leaf.address)
    (m : Memory) :
    b.run path m (ls.map (Leaf.assignment mode path)) s =
      if ∃ l ∈ ls, b.Overlap l.address s then none else m s := by
  induction ls generalizing m with
  | nil => simp [run]
  | cons l ls ih =>
    obtain ⟨hl, hrest⟩ := List.forall_mem_cons.1 hls
    obtain ⟨hne, hnot⟩ := not_or.1 (fun h ↦ hs (List.mem_cons.2 h))
    rw [run, List.map_cons, List.foldl_cons, execute_assignment hb hl, ← run, ih hrest hnot,
      assign, if_neg hne]
    simp only [List.mem_cons, exists_eq_or_imp]
    by_cases hoverlap : b.Overlap l.address s
    · simp [hoverlap]
    · simp [hoverlap]

/-- **A run keeps every value if and only if no slot overlaps a later one**, whatever memory held
before. -/
theorem forall_run_eq_iff_pairwise (hb : b.WellFormed below) {ls : List Leaf}
    (hls : ∀ l ∈ ls, l.address ∈ b.addresses) (hnodup : (ls.map Leaf.address).Nodup)
    (m : Memory) :
    (∀ l ∈ ls, b.run path m (ls.map (Leaf.assignment mode path)) l.address =
        some (l.literal mode)) ↔
      (ls.map Leaf.address).Pairwise fun s t ↦ ¬b.Overlap t s := by
  induction ls generalizing m with
  | nil => simp
  | cons l ls ih =>
    obtain ⟨hl, hrest⟩ := List.forall_mem_cons.1 hls
    obtain ⟨hnot, hnodup⟩ := List.nodup_cons.1 hnodup
    rw [run, List.map_cons, List.foldl_cons, execute_assignment hb hl, ← run, List.forall_mem_cons,
      ih hrest hnodup, List.map_cons, List.pairwise_cons, run_of_not_mem hb hrest hnot, assign,
      if_pos rfl, List.forall_mem_map]
    simp

/-! ### Documents -/

section Documents

variable (options : Options) (name : String) {ms : List (String × Json)}

/-- The slots of a document are those of its leaves. -/
theorem addresses_ofMembers (depth : Nat) (ms : List (String × Json)) :
    (ofMembers options depth name ms).addresses = (Json.leavesOf ms).map Leaf.address := by
  rw [addresses, ← Member.map_address_cellsOfAll]
  show (Member.cells.cellsOfAll (Member.ofMembers _ ms)).map Cell.address = _
  rw [Member.cellsOfAll_ofMembers, List.map_map]
  rfl

/-- The names in every block of a document are distinct if the identifiers at every level are. -/
theorem nodup_map_name_of_levels (depth : Nat)
    (h : ∀ level ∈ (Json.object ms).levels, (Json.identifiers level).Nodup) :
    ∀ members ∈ (ofMembers options depth name ms).blocks, (members.map Member.name).Nodup := by
  rw [← List.forall_mem_map (f := List.map Member.name) (P := List.Nodup), map_map_name_blocks,
    List.forall_mem_map]
  exact h

/-- Whether a run keeps a document is a matter of its slots alone. -/
theorem keeps_run_iff_apart
    (h : ∀ level ∈ (Json.object ms).levels, (Json.identifiers level).Nodup) (initial : Memory) :
    let b := ofMembers options 0 name ms
    b.Keeps (Json.leavesOf ms) (b.run path initial (Assignment.ofMembers .values path ms)) ↔
      Member.Apart b.kind b.members b.addresses := by
  intro b
  have haddresses : b.addresses = (Json.leavesOf ms).map Leaf.address :=
    addresses_ofMembers options name 0 ms
  have hslots : ∀ l ∈ Json.leavesOf ms, l.address ∈ b.addresses :=
    fun l hl ↦ haddresses ▸ List.mem_map_of_mem hl
  obtain ⟨hnames, hdeeper⟩ := List.forall_mem_cons.1 (nodup_map_name_of_levels options name 0 h)
  have hnodup : ((Json.leavesOf ms).map Leaf.address).Nodup :=
    haddresses ▸ Member.nodup_addressesOfAll hnames hdeeper
  -- what a slot holds at the end is the literal of its leaf, or nothing
  have hholds : ∀ (m : Memory), b.Keeps (Json.leavesOf ms) m ↔
      ∀ l ∈ Json.leavesOf ms, m l.address = some (l.literal .values) := by
    intro m
    rw [Keeps, haddresses, List.forall₂_map_left_iff, List.forall₂_same]
    refine forall₂_congr fun l hl ↦ ?_
    obtain ⟨t, ht⟩ := Json.exists_scalarTag?_of_mem_leavesOf hl
    rw [Leaf.literal_values]
    constructor
    · rintro ⟨-, c, hc, hcarries⟩
      rw [hc, hcarries.eq_ofJson]
    · intro hl
      refine ⟨rfl, _, hl, ?_⟩
      rw [Json.tag_of_scalarTag? ht]
      exact Literal.carries_ofJson ht
  rw [hholds, Assignment.ofMembers_eq_map_leaves, forall_run_eq_iff_pairwise
    (wellFormed_ofMembers options 0 name ms) hslots hnodup, ← haddresses]
  rfl

end Documents

end Block

/-- **Structures keep every document, and unions keep those without two members to share.** Let the
keys whose values are not dropped have distinct identifiers at every level. If nested blocks are
structures, then after a run every slot holds its leaf, whatever memory held before. If they are
unions, this is so if and only if no nested block has two members with slots. -/
theorem keeps_iff_layout (options : Options) (name path : String) (ms : List (String × Json))
    (h : ∀ level ∈ (Json.object ms).levels, (Json.identifiers level).Nodup) (initial : Memory) :
    let b := Block.ofMembers options 0 name ms
    let memory := b.run path initial (Assignment.ofMembers .values path ms)
    (options.nestedLayout = .struct → b.Keeps (Json.leavesOf ms) memory) ∧
      (options.nestedLayout = .union → (b.Keeps (Json.leavesOf ms) memory ↔
        ∀ inner ∈ Member.blocks.blocksOfAll b.members, (Member.occupied inner).length ≤ 1)) := by
  intro b memory
  have hkeeps : b.Keeps (Json.leavesOf ms) memory ↔ Member.Apart b.kind b.members b.addresses :=
    Block.keeps_run_iff_apart options name h initial
  obtain ⟨hnames, hdeeper⟩ := List.forall_mem_cons.1
    (Block.nodup_map_name_of_levels options name 0 h)
  have hapart : Member.Apart b.kind b.members b.addresses ↔ _ := Member.apart_addressesOfAll_iff
    (Block.wellFormed_ofMembers options 0 name ms).2 hnames hdeeper
  -- the outermost block is a structure, whatever nested ones are
  have hroot : ¬b.kind = .union := BlockKind.noConfusion
  have hcriterion : b.Keeps (Json.leavesOf ms) memory ↔
      (BlockKind.atDepth options.nestedLayout 1 = .union →
        ∀ inner ∈ Member.blocks.blocksOfAll b.members, (Member.occupied inner).length ≤ 1) :=
    hkeeps.trans (hapart.trans (and_iff_right fun hunion ↦ absurd hunion hroot))
  constructor
  · intro hstruct
    rw [hcriterion, hstruct]
    exact fun hunion ↦ BlockKind.noConfusion hunion
  · intro hunion
    rw [hcriterion, hunion]
    exact ⟨fun hall ↦ hall rfl, fun hall _ ↦ hall⟩

/-- Two members of a nested object are kept by structures and not by unions. -/
theorem keeps_iff_layout_pair :
    let ms : List (String × Json) := [("n", .object [("x", .boolean true), ("y", .string "s")])]
    let kept (options : Options) : Prop :=
      let b := Block.ofMembers options 0 "r" ms
      b.Keeps (Json.leavesOf ms)
        (b.run "r" (fun _ ↦ none) (Assignment.ofMembers .values "r" ms))
    (∀ level ∈ (Json.object ms).levels, (Json.identifiers level).Nodup) ∧
      kept { nestedLayout := .struct } ∧ ¬kept { nestedLayout := .union } := by
  intro ms kept
  have hlevels : ∀ level ∈ (Json.object ms).levels, (Json.identifiers level).Nodup := by decide
  refine ⟨hlevels, (keeps_iff_layout { nestedLayout := .struct } "r" "r" ms hlevels _).1 rfl,
    fun hkept ↦ ?_⟩
  have hall := ((keeps_iff_layout { nestedLayout := .union } "r" "r" ms hlevels _).2 rfl).1 hkept
  exact absurd hall (by decide)

end JsonEmbed
