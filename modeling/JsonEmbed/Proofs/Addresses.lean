import JsonEmbed.Proofs.Declarations
import JsonEmbed.Proofs.Slots
import Mathlib.Data.List.Nodup

/-!
# Addresses of slots

A slot lies at the end of a way through the declaration: the names of the blocks that it goes into,
the name of a member, and for an array an index. `Address` is this way as data, and the path of a
slot is the path of its block followed by the text of its address (`slotsOfAll_eq_map`).

The text says everything (`Address.text_injective`): every name follows a point and ends where no
identifier goes on, and only an index has brackets. So whether two slots are one is a question
about addresses and not about texts, and it is settled by the names of members alone: if no block
has two members of one name, then no two slots have one address (`nodup_addressesOfAll`). Members of
different names are at the heads of different addresses, and below one name the induction goes on.
-/

namespace JsonEmbed

/-- The place of a slot below a path: the names on the way to it, and an index in an array. -/
structure Address where
  names : List String
  index : Option Nat
  deriving DecidableEq

namespace Address

/-! ### Texts of addresses -/

/-- The text of the names on the way. -/
def namesText : List String → String
  | [] => ""
  | n :: ns => "." ++ n ++ namesText ns

/-- The text of an index. -/
def indexText : Option Nat → String
  | none => ""
  | some i => "[" ++ Nat.repr i ++ "]"

/-- The text of an address. -/
def text (a : Address) : String :=
  namesText a.names ++ indexText a.index

/-- The address one block further out. -/
def below (n : String) (a : Address) : Address :=
  ⟨n :: a.names, a.index⟩

theorem text_below (n : String) (a : Address) : (a.below n).text = "." ++ n ++ a.text := by
  rw [text, below, namesText, text, String.append_assoc]

theorem below_injective (n : String) : Function.Injective (below n) := by
  intro a b h
  obtain ⟨hnames, hindex⟩ := Address.mk.inj h
  obtain ⟨names, index⟩ := a
  obtain rfl : names = b.names := (List.cons.inj hnames).2
  obtain rfl : index = b.index := hindex
  rfl

/-- What follows a name in the text of an address goes on with a mark or not at all. -/
theorem isIdentifierChar_of_mem_head? (ns : List String) (i : Option Nat) :
    ∀ c ∈ (text ⟨ns, i⟩).toList.head?, C.isIdentifierChar c = false := by
  rcases ns with - | ⟨n, ns⟩
  · rcases i with - | i
    · exact fun c hc ↦ absurd hc (by simp [text, namesText, indexText])
    · intro c hc
      obtain rfl : '[' = c := by simpa [text, namesText, indexText] using hc
      rfl
  · intro c hc
    obtain rfl : '.' = c := by simpa [text, namesText] using hc
    rfl

/-- Indices can be told from their texts. -/
theorem indexText_injective : Function.Injective indexText := by
  intro i j h
  rcases i with - | i <;> rcases j with - | j
  · rfl
  · exact absurd (congrArg String.toList h) (by simp [indexText])
  · exact absurd (congrArg String.toList h) (by simp [indexText])
  · have hrepr : Nat.repr i = Nat.repr j := by
      rw [indexText, indexText, String.append_assoc, String.append_assoc] at h
      exact (String.append_left_inj _).1 ((String.append_right_inj _).1 h)
    rw [eq_of_repr_eq hrepr]

/-- The text of an index is not that of a way through names. -/
theorem indexText_ne_text_cons (i : Option Nat) (n : String) (ns : List String) (j : Option Nat) :
    indexText i ≠ text ⟨n :: ns, j⟩ := by
  intro h
  have hhead := congrArg (fun s ↦ s.toList.head?) h
  rcases i with - | i <;> simp [indexText, text, namesText] at hhead

/-- **Addresses of names can be told from their texts.** -/
theorem text_injective {a b : Address} (ha : ∀ n ∈ a.names, C.IsName n)
    (hb : ∀ n ∈ b.names, C.IsName n) (h : a.text = b.text) : a = b := by
  obtain ⟨ns, i⟩ := a
  obtain ⟨ms, j⟩ := b
  induction ns generalizing ms with
  | nil =>
    rcases ms with - | ⟨m, ms⟩
    · rw [text, text, namesText, String.empty_append, String.empty_append] at h
      exact congrArg (mk []) (indexText_injective h)
    · rw [text, namesText, String.empty_append] at h
      exact absurd h (indexText_ne_text_cons i m ms j)
  | cons n ns ih =>
    rcases ms with - | ⟨m, ms⟩
    · have h' := h.symm
      rw [text, namesText, String.empty_append] at h'
      exact absurd h' (indexText_ne_text_cons j n ns i)
    · have htexts : "." ++ n ++ text ⟨ns, i⟩ = "." ++ m ++ text ⟨ms, j⟩ := by
        rw [← text_below, ← text_below]
        exact h
      have hc := congrArg String.toList htexts
      rw [String.append_assoc, String.append_assoc, String.toList_append, String.toList_append,
        String.toList_append, String.toList_append] at hc
      obtain ⟨rfl, hrest⟩ := C.eq_of_name_append_of_head? (ha n List.mem_cons_self)
        (hb m List.mem_cons_self) (isIdentifierChar_of_mem_head? ns i)
        (isIdentifierChar_of_mem_head? ms j) (List.append_cancel_left hc)
      have htail := ih (fun k hk ↦ ha k (List.mem_cons_of_mem n hk)) ms
        (fun k hk ↦ hb k (List.mem_cons_of_mem n hk)) (String.toList_inj.1 hrest)
      exact congrArg (below n) htail

end Address

/-! ### The addresses of a declaration -/

namespace Member

/-- The addresses of the slots of a member. -/
def addresses : Member → List Address
  | scalar n _ => [⟨[n], none⟩]
  | array n _ length => (List.range length).map fun i ↦ ⟨[n], some i⟩
  | nested n _ _ _ ms => (addressesOfAll ms).map (Address.below n)
where
  /-- The addresses of the slots of several members. -/
  addressesOfAll : List Member → List Address
    | [] => []
    | m :: ms => m.addresses ++ addressesOfAll ms

/-- The path of a slot is that of its block and the text of its address. -/
theorem slotsOfAll_eq_map (path : String) (ms : List Member) :
    slots.slotsOfAll path ms =
      (addresses.addressesOfAll ms).map fun a ↦ path ++ a.text := by
  induction ms using listInduction generalizing path with
  | nil => rfl
  | scalar n t rest ih =>
    rw [slots.slotsOfAll, addresses.addressesOfAll, List.map_append, ih]
    simp [slots, addresses, Address.text, Address.namesText, Address.indexText,
      String.append_assoc]
  | array n t length rest ih =>
    rw [slots.slotsOfAll, addresses.addressesOfAll, List.map_append, ih]
    simp [slots, addresses, Address.text, Address.namesText, Address.indexText,
      String.append_assoc]
  | nested n t kind blockName ms rest ih ihrest =>
    rw [slots.slotsOfAll, addresses.addressesOfAll, List.map_append, ihrest, slots, addresses, ih,
      List.map_map]
    simp [Address.text_below, String.append_assoc]

/-- The addresses of a member begin with its name. -/
theorem head?_names_of_mem_addresses {m : Member} {a : Address} (h : a ∈ m.addresses) :
    a.names.head? = some m.name := by
  cases m with
  | scalar n t =>
    obtain rfl := List.mem_singleton.1 h
    rfl
  | array n t length =>
    obtain ⟨i, -, rfl⟩ := List.mem_map.1 h
    rfl
  | nested n t kind blockName ms =>
    obtain ⟨b, -, rfl⟩ := List.mem_map.1 h
    rfl

/-- The addresses of members begin with the name of one of them. -/
theorem exists_name_of_mem_addressesOfAll {ms : List Member} {a : Address}
    (h : a ∈ addresses.addressesOfAll ms) :
    ∃ m ∈ ms, a.names.head? = some m.name := by
  induction ms with
  | nil => exact absurd h List.not_mem_nil
  | cons m ms ih =>
    rcases List.mem_append.1 h with h | h
    · exact ⟨m, List.mem_cons_self, head?_names_of_mem_addresses h⟩
    · obtain ⟨k, hk, hname⟩ := ih h
      exact ⟨k, List.mem_cons_of_mem m hk, hname⟩

/-- The addresses of well-formed members consist of names. -/
theorem isName_of_mem_addressesOfAll {below : BlockKind} {ms : List Member}
    (hms : WellFormed.allWellFormed below ms) {a : Address}
    (ha : a ∈ addresses.addressesOfAll ms) : ∀ n ∈ a.names, C.IsName n := by
  induction ms using listInduction generalizing a with
  | nil => exact absurd ha List.not_mem_nil
  | scalar n t rest ih =>
    rcases List.mem_append.1 ha with ha | ha
    · obtain rfl := List.mem_singleton.1 ha
      exact fun k hk ↦ List.mem_singleton.1 hk ▸ hms.1.1
    · exact ih hms.2 ha
  | array n t length rest ih =>
    rcases List.mem_append.1 ha with ha | ha
    · obtain ⟨i, -, rfl⟩ := List.mem_map.1 ha
      exact fun k hk ↦ List.mem_singleton.1 hk ▸ hms.1.1
    · exact ih hms.2 ha
  | nested n t kind blockName ms rest ih ihrest =>
    rcases List.mem_append.1 ha with ha | ha
    · obtain ⟨b, hb, rfl⟩ := List.mem_map.1 ha
      obtain ⟨hn, -, rfl, -, hmembers⟩ := hms.1
      intro k hk
      rcases List.mem_cons.1 hk with rfl | hk
      · exact hn
      · exact ih hmembers hb k hk
    · exact ihrest hms.2 ha

/-! ### Blocks without two members of one name -/

/-- The members of every block that a member declares. -/
def blocks : Member → List (List Member)
  | scalar _ _ | array _ _ _ => []
  | nested _ _ _ _ ms => ms :: blocksOfAll ms
where
  /-- The members of every block that several members declare. -/
  blocksOfAll : List Member → List (List Member)
    | [] => []
    | m :: ms => m.blocks ++ blocksOfAll ms

/-- The addresses of the members of a block are distinct, if those of each member are and no two
members have one name. -/
theorem nodup_addressesOfAll_cons {m : Member} {ms : List Member}
    (hname : m.name ∉ ms.map name) (hm : m.addresses.Nodup)
    (hms : (addresses.addressesOfAll ms).Nodup) :
    (addresses.addressesOfAll (m :: ms)).Nodup := by
  refine List.nodup_append.2 ⟨hm, hms, fun a ha b hb hab ↦ hname ?_⟩
  obtain ⟨k, hk, hhead⟩ := exists_name_of_mem_addressesOfAll hb
  rw [← hab, head?_names_of_mem_addresses ha] at hhead
  rw [Option.some.inj hhead]
  exact List.mem_map_of_mem hk

/-- **If no block has two members of one name, no two slots have one address.** -/
theorem nodup_addressesOfAll {ms : List Member} (h : (ms.map name).Nodup)
    (hblocks : ∀ b ∈ blocks.blocksOfAll ms, (b.map name).Nodup) :
    (addresses.addressesOfAll ms).Nodup := by
  induction ms using listInduction with
  | nil => exact List.nodup_nil
  | scalar n t rest ih =>
    obtain ⟨hname, hrest⟩ := List.nodup_cons.1 h
    exact nodup_addressesOfAll_cons hname (List.nodup_singleton _) (ih hrest hblocks)
  | array n t length rest ih =>
    obtain ⟨hname, hrest⟩ := List.nodup_cons.1 h
    refine nodup_addressesOfAll_cons hname (List.nodup_range.map fun i j hij ↦ ?_)
      (ih hrest hblocks)
    exact Option.some.inj (Address.mk.inj hij).2
  | nested n t kind blockName ms rest ih ihrest =>
    obtain ⟨hname, hrest⟩ := List.nodup_cons.1 h
    -- below one name, addresses differ where the addresses in the inner block do
    have hinner : ∀ b ∈ ms :: blocks.blocksOfAll ms, (b.map name).Nodup :=
      fun b hb ↦ hblocks b (List.mem_append_left _ hb)
    have houter : ∀ b ∈ blocks.blocksOfAll rest, (b.map name).Nodup :=
      fun b hb ↦ hblocks b (List.mem_append_right _ hb)
    obtain ⟨hms, hdeeper⟩ := List.forall_mem_cons.1 hinner
    exact nodup_addressesOfAll_cons hname ((ih hms hdeeper).map (Address.below_injective n))
      (ihrest hrest houter)

/-- The slots of a well-formed declaration are distinct, if no block has two members of one
name. -/
theorem nodup_slotsOfAll {below : BlockKind} {ms : List Member}
    (hms : WellFormed.allWellFormed below ms) (path : String) (h : (ms.map name).Nodup)
    (hblocks : ∀ b ∈ blocks.blocksOfAll ms, (b.map name).Nodup) :
    (slots.slotsOfAll path ms).Nodup := by
  rw [slotsOfAll_eq_map]
  refine (nodup_addressesOfAll h hblocks).map_on fun a ha b hb hab ↦ ?_
  exact Address.text_injective (isName_of_mem_addressesOfAll hms ha)
    (isName_of_mem_addressesOfAll hms hb) ((String.append_right_inj _).1 hab)

end Member

end JsonEmbed
