import JsonEmbed.Document
import JsonEmbed.Proofs.Members
import JsonEmbed.Proofs.Places
import JsonEmbed.Proofs.Rounding
import JsonEmbed.Query.Fragment
import Mathlib.Algebra.Group.Int.Defs
import Mathlib.Data.List.Nodup

/-!
# Limits of loaded values

What is loaded has been read: containers nest at most as deep as the reader goes, every number is
one that the reader gives, and no object has two members of one key. `Json.WithinLimits` says this
of a value, with the depth that is left as an index, as the reader has it.

A pointer selects a part of a value, which is within the same limits. A query may build values of
any depth and numbers of any size, but each of its results is written as text and read back, and so
is within the limits again (`withinLimits_of_load`).

Both walks over a document call themselves once for each object inside an object. That they never go
deeper than the limit is said by walks which give up there (`Member.ofMembersWithin?`,
`Assignment.ofMembersWithin?`): for a loaded value these give what the walks give.
-/

namespace JsonEmbed

/-! ### What readers give -/

/-- If the reader gives a value, then one with the property. -/
def Gives {α : Type} (r : ReadResult α) (p : α → Prop) : Prop :=
  ∀ a rest, r = .ok (a, rest) → p a

namespace Gives

variable {α : Type} {p : α → Prop} {a : α} {s : Bytes}

theorem ok (h : p a) : Gives (.ok (a, s)) p := by
  intro b rest hb
  obtain rfl := (Prod.mk.inj (Except.ok.inj hb)).1
  exact h

theorem error (f : Fault) : Gives (.error f) p :=
  fun _ _ h ↦ absurd h (by simp)

end Gives

/-! ### Numbers that are read -/

theorem Number.valid_integer {i : Int} : (integer i).Valid ↔ -2 ^ 63 ≤ i ∧ i < 2 ^ 64 :=
  Iff.rfl

theorem Number.valid_double {negative : Bool} {u : Nat} :
    (double ⟨negative, u⟩).Valid ↔ Binary64.Representable u :=
  Iff.rfl

namespace Numeral

variable {significand : Nat} {exponent : Int}

theorem digit?_le {b : UInt8} {d : Nat} (h : digit? b = some d) : d ≤ 9 := by
  rw [digit?] at h
  split at h
  · obtain rfl := Option.some.inj h
    omega
  · exact absurd h (by simp)

/-- A significand stays within its bounds. -/
theorem accumulate_le (h : significand ≤ maxSignificand) (s : Bytes) :
    (accumulate significand s).1 ≤ maxSignificand := by
  induction s generalizing significand with
  | nil => exact h
  | cons b s ih =>
    rw [accumulate]
    split
    · exact h
    · split
      · next hfits => exact ih hfits
      · exact h

theorem representable_of_scaled? {f : Binary64} (h : scaled? significand exponent = some f) :
    Binary64.Representable f.units := by
  rw [scaled?] at h
  split at h
  · split at h
    · exact Binary64.representable_of_ofUnits? h
    · split at h
      · obtain rfl := Option.some.inj h
        exact Binary64.representable_ofNat significand
      · exact absurd h (by simp)
  · exact Binary64.representable_of_ofUnits? h

section Valid

variable (negative : Bool) (significand : Nat) (shift : Int) (s : Bytes)

theorem double_gives_valid : Gives (double negative significand shift s) Number.Valid := by
  unfold double
  split
  · next f hscaled =>
    exact .ok (Number.valid_double.2 (representable_of_scaled? hscaled))
  · exact .error _

theorem exponentPart_gives_valid :
    Gives (exponentPart negative significand shift s) Number.Valid := by
  unfold exponentPart
  split
  split
  · exact .error _
  split
  · exact .error _
  split
  · exact double_gives_valid _ _ _ _
  split
  · exact .error _
  · exact .ok (Number.valid_double.2 Binary64.representable_zero)

theorem afterDigits_gives_valid :
    Gives (afterDigits negative significand shift s) Number.Valid := by
  unfold afterDigits
  split
  · exact exponentPart_gives_valid _ _ _ _
  · exact exponentPart_gives_valid _ _ _ _
  · exact double_gives_valid _ _ _ _

theorem fractionPart_gives_valid :
    Gives (fractionPart negative significand shift s) Number.Valid := by
  unfold fractionPart
  split
  split
  · exact afterDigits_gives_valid _ _ _ _
  split
  · split
    · exact .error _
    · exact .error _
  · exact afterDigits_gives_valid _ _ _ _

end Valid

variable (negative : Bool) (s : Bytes)

theorem valid_whole (h : significand ≤ maxSignificand) : (whole negative significand).Valid := by
  rw [whole]
  split
  · split
    · next hneg =>
      have hle : significand ≤ 2 ^ 63 := hneg.2
      exact Number.valid_integer.2 ⟨by omega, by omega⟩
    · exact Number.valid_double.2 (Binary64.representable_ofNat significand)
  · have hle : significand ≤ 2 ^ 64 - 1 := h
    exact Number.valid_integer.2 ⟨by omega, by omega⟩

theorem afterInteger_gives_valid (h : significand ≤ maxSignificand) :
    Gives (afterInteger negative significand s) Number.Valid := by
  unfold afterInteger
  split
  · exact fractionPart_gives_valid _ _ _ _
  · exact exponentPart_gives_valid _ _ _ _
  · exact exponentPart_gives_valid _ _ _ _
  · exact .ok (valid_whole _ h)

/-- A number that is read is one that a document can hold. -/
theorem unsigned_gives_valid : Gives (unsigned negative s) Number.Valid := by
  unfold unsigned
  split
  · exact .error _
  split
  · exact .error _
  · split
    · exact .error _
    · exact afterInteger_gives_valid _ _ (Nat.zero_le _)
  next b s _ d _ hd =>
    have hfits : d ≤ maxSignificand := Nat.le_trans (digit?_le hd) (by decide)
    have htotal := accumulate_le hfits s
    split
    next total _ rest hacc =>
    rw [hacc] at htotal
    split
    · split
      · exact fractionPart_gives_valid _ _ _ _
      · exact afterDigits_gives_valid _ _ _ _
    · exact afterInteger_gives_valid _ _ htotal

end Numeral

namespace Json

/-! ### Members without two of one key -/

section Keys

variable {α : Type} {key : String} {value : α} {m : String × α}

/-- Putting a member adds nothing else. -/
theorem mem_of_mem_put {ms : List (String × α)} (h : m ∈ put key value ms) :
    m = (key, value) ∨ m ∈ ms := by
  induction ms with
  | nil => exact Or.inl (List.mem_singleton.1 h)
  | cons first rest ih =>
    obtain ⟨k, v⟩ := first
    rw [put] at h
    split at h
    · next hk =>
      rcases List.mem_cons.1 h with rfl | hrest
      · exact Or.inl (by rw [hk])
      · exact Or.inr (List.mem_cons_of_mem _ hrest)
    · rcases List.mem_cons.1 h with rfl | hrest
      · exact Or.inr List.mem_cons_self
      · exact (ih hrest).imp_right (List.mem_cons_of_mem _)

/-- A key that is there stays in its place, and another one is added behind. -/
theorem map_fst_put (ms : List (String × α)) :
    (put key value ms).map Prod.fst =
      if key ∈ ms.map Prod.fst then ms.map Prod.fst else ms.map Prod.fst ++ [key] := by
  induction ms with
  | nil => rfl
  | cons first rest ih =>
    obtain ⟨k, v⟩ := first
    rw [put]
    by_cases hk : k = key
    · simp [hk]
    · have hne : key ≠ k := Ne.symm hk
      rw [if_neg hk, List.map_cons, ih]
      by_cases hmem : key ∈ rest.map Prod.fst
      · simp only [List.map_cons, List.mem_cons, hne, hmem, or_true, if_true]
      · simp only [List.map_cons, List.mem_cons, hne, hmem, or_self, if_false, List.cons_append]

theorem nodup_put {ms : List (String × α)} (h : (ms.map Prod.fst).Nodup) :
    ((put key value ms).map Prod.fst).Nodup := by
  rw [map_fst_put]
  split
  · exact h
  · next hkey =>
    rw [← List.concat_eq_append]
    exact List.Nodup.concat hkey h

/-- Members that are put one after the other have distinct keys, and nothing but them is there. -/
theorem ofMembers_spec (ms : List (String × α)) :
    ((ofMembers ms).map Prod.fst).Nodup ∧ ∀ m ∈ ofMembers ms, m ∈ ms := by
  have hfold : ∀ known : List (String × α), (known.map Prod.fst).Nodup →
      let all := ms.foldl (fun known member ↦ put member.1 member.2 known) known
      (all.map Prod.fst).Nodup ∧ ∀ m ∈ all, m ∈ known ∨ m ∈ ms := by
    induction ms with
    | nil => exact fun known hknown ↦ ⟨hknown, fun m hm ↦ Or.inl hm⟩
    | cons first rest ih =>
      intro known hknown
      obtain ⟨hnodup, hmem⟩ := ih (put first.1 first.2 known) (nodup_put hknown)
      refine ⟨hnodup, fun m hm ↦ ?_⟩
      rcases hmem m hm with hput | hrest
      · rcases mem_of_mem_put hput with rfl | hold
        · exact Or.inr List.mem_cons_self
        · exact Or.inl hold
      · exact Or.inr (List.mem_cons_of_mem _ hrest)
  obtain ⟨hnodup, hmem⟩ := hfold [] List.nodup_nil
  exact ⟨hnodup, fun m hm ↦ (hmem m hm).resolve_left List.not_mem_nil⟩

/-- A new key is put behind all others. -/
theorem put_of_notMem {ms : List (String × α)} (h : key ∉ ms.map Prod.fst) :
    put key value ms = ms ++ [(key, value)] := by
  induction ms with
  | nil => rfl
  | cons m ms ih =>
    obtain ⟨hm, hms⟩ := not_or.1 (mt List.mem_cons.2 h)
    rw [put, if_neg (Ne.symm hm), ih hms]
    rfl

/-- Members with distinct keys stay as they are. -/
theorem ofMembers_of_nodup {ms : List (String × α)} (h : (ms.map Prod.fst).Nodup) :
    ofMembers ms = ms := by
  -- along the way, some members have been put already
  have hfold : ∀ known : List (String × α), ((known ++ ms).map Prod.fst).Nodup →
      ms.foldl (fun known member ↦ put member.1 member.2 known) known = known ++ ms := by
    clear h
    induction ms with
    | nil => exact fun known _ ↦ (List.append_nil known).symm
    | cons m ms ih =>
      intro known hknown
      have hnew : m.1 ∉ known.map Prod.fst := by
        rw [List.map_append, List.map_cons] at hknown
        exact fun hmem ↦ List.disjoint_of_nodup_append hknown hmem List.mem_cons_self
      rw [List.append_cons] at hknown ⊢
      rw [List.foldl_cons, put_of_notMem hnew, ih _ hknown]
  exact hfold [] h

/-- With distinct keys, a member is what is found under its key. -/
theorem lookup_eq_some_iff_mem {κ : Type} [BEq κ] [LawfulBEq κ] {k : κ} {v : α}
    {ms : List (κ × α)} (h : (ms.map Prod.fst).Nodup) : ms.lookup k = some v ↔ (k, v) ∈ ms := by
  constructor
  · intro hfound
    obtain ⟨before, after, rfl, -⟩ := List.lookup_eq_some_iff.1 hfound
    exact List.mem_append_right _ List.mem_cons_self
  · intro hmem
    obtain ⟨before, after, rfl⟩ := List.append_of_mem hmem
    refine List.lookup_eq_some_iff.2 ⟨before, after, rfl, fun m hm ↦ ?_⟩
    rw [List.map_append, List.map_cons] at h
    rw [bne_iff_ne]
    rintro rfl
    exact List.disjoint_of_nodup_append h (List.mem_map_of_mem hm) List.mem_cons_self

end Keys

/-! ### Values within limits -/

/-- A value in which containers nest at most so deep, every number is one that a document can hold,
and no object has two members of one key. -/
inductive WithinLimits : Nat → Json → Prop
  | null {d : Nat} : WithinLimits d null
  | boolean {d : Nat} (b : Bool) : WithinLimits d (boolean b)
  | number {d : Nat} {n : Number} (h : n.Valid) : WithinLimits d (number n)
  | string {d : Nat} (s : String) : WithinLimits d (string s)
  | array {d : Nat} {xs : List Json} (h : ∀ x ∈ xs, WithinLimits d x) :
    WithinLimits (d + 1) (array xs)
  | object {d : Nat} {ms : List (String × Json)} (hkeys : (ms.map Prod.fst).Nodup)
    (h : ∀ m ∈ ms, WithinLimits d m.2) : WithinLimits (d + 1) (object ms)

namespace WithinLimits

theorem mono {d e : Nat} {v : Json} (h : v.WithinLimits d) (hde : d ≤ e) :
    v.WithinLimits e := by
  induction h generalizing e with
  | null => exact .null
  | boolean b => exact .boolean b
  | number hn => exact .number hn
  | string s => exact .string s
  | array _ ih =>
    obtain ⟨e, rfl⟩ := Nat.exists_eq_add_of_lt hde
    exact .array fun x hx ↦ ih x hx (by omega)
  | object hkeys _ ih =>
    obtain ⟨e, rfl⟩ := Nat.exists_eq_add_of_lt hde
    exact .object hkeys fun m hm ↦ ih m hm (by omega)

/-- What is inside a value within limits is within the same limits. -/
theorem child? {d : Nat} {token : String} {v w : Json} (h : v.WithinLimits d)
    (hw : v.child? token = some w) : w.WithinLimits d := by
  cases h with
  | array hxs =>
    obtain ⟨i, -, hi⟩ := Option.bind_eq_some_iff.1 hw
    exact (hxs w (List.mem_of_getElem? hi)).mono (Nat.le_succ _)
  | object _ hms =>
    obtain ⟨before, after, rfl, -⟩ := List.lookup_eq_some_iff.1 hw
    exact (hms (token, w) (List.mem_append_right _ List.mem_cons_self)).mono (Nat.le_succ _)
  | null | boolean | number | string => exact absurd hw (by simp [Json.child?])

theorem select? {d : Nat} {pointer : String} {v w : Json} (h : v.WithinLimits d)
    (hw : v.select? pointer = some w) : w.WithinLimits d := by
  obtain ⟨tokens, -, hfollow⟩ := Option.bind_eq_some_iff.1 hw
  clear hw
  induction tokens generalizing v with
  | nil =>
    obtain rfl := Option.some.inj hfollow
    exact h
  | cons token tokens ih =>
    obtain ⟨next, hnext, hrest⟩ := Option.bind_eq_some_iff.1 hfollow
    exact ih (h.child? hnext) hrest

end WithinLimits

/-! ### What the limits say of a value and everything inside it -/

/-- How deep the containers of a value nest. -/
def depth : Json → Nat
  | array xs => depthOfElements xs + 1
  | object ms => depthOfMembers ms + 1
  | _ => 0
where
  /-- How deep the elements of an array nest. -/
  depthOfElements : List Json → Nat
    | [] => 0
    | x :: xs => max x.depth (depthOfElements xs)
  /-- How deep the members of an object nest. -/
  depthOfMembers : List (String × Json) → Nat
    | [] => 0
    | (_, v) :: ms => max v.depth (depthOfMembers ms)

/-- A value and all values inside it. -/
def parts : Json → List Json
  | array xs => array xs :: partsOfElements xs
  | object ms => object ms :: partsOfMembers ms
  | v => [v]
where
  /-- The parts of the elements of an array. -/
  partsOfElements : List Json → List Json
    | [] => []
    | x :: xs => x.parts ++ partsOfElements xs
  /-- The parts of the members of an object. -/
  partsOfMembers : List (String × Json) → List Json
    | [] => []
    | (_, v) :: ms => v.parts ++ partsOfMembers ms

theorem depthOfElements_le {d : Nat} {xs : List Json} (h : ∀ x ∈ xs, x.depth ≤ d) :
    depth.depthOfElements xs ≤ d := by
  induction xs with
  | nil => exact Nat.zero_le d
  | cons x xs ih =>
    obtain ⟨hx, hxs⟩ := List.forall_mem_cons.1 h
    exact Nat.max_le.2 ⟨hx, ih hxs⟩

theorem depthOfMembers_le {d : Nat} {ms : List (String × Json)} (h : ∀ m ∈ ms, m.2.depth ≤ d) :
    depth.depthOfMembers ms ≤ d := by
  induction ms with
  | nil => exact Nat.zero_le d
  | cons m ms ih =>
    obtain ⟨hm, hms⟩ := List.forall_mem_cons.1 h
    exact Nat.max_le.2 ⟨hm, ih hms⟩

theorem exists_of_mem_partsOfElements {p : Json} {xs : List Json}
    (h : p ∈ parts.partsOfElements xs) : ∃ x ∈ xs, p ∈ x.parts := by
  induction xs with
  | nil => exact absurd h List.not_mem_nil
  | cons x xs ih =>
    rcases List.mem_append.1 h with hx | hxs
    · exact ⟨x, List.mem_cons_self, hx⟩
    · obtain ⟨y, hy, hp⟩ := ih hxs
      exact ⟨y, List.mem_cons_of_mem _ hy, hp⟩

theorem exists_of_mem_partsOfMembers {p : Json} {ms : List (String × Json)}
    (h : p ∈ parts.partsOfMembers ms) : ∃ m ∈ ms, p ∈ m.2.parts := by
  induction ms with
  | nil => exact absurd h List.not_mem_nil
  | cons m ms ih =>
    rcases List.mem_append.1 h with hm | hms
    · exact ⟨m, List.mem_cons_self, hm⟩
    · obtain ⟨n, hn, hp⟩ := ih hms
      exact ⟨n, List.mem_cons_of_mem _ hn, hp⟩

namespace WithinLimits

variable {d : Nat} {v : Json}

theorem depth_le (h : v.WithinLimits d) : v.depth ≤ d := by
  induction h with
  | null | boolean | number | string => exact Nat.zero_le _
  | array _ ih => exact Nat.succ_le_succ (depthOfElements_le ih)
  | object _ _ ih => exact Nat.succ_le_succ (depthOfMembers_le ih)

/-- Every part of a value within limits is within the same limits. -/
theorem part {p : Json} (h : v.WithinLimits d) (hp : p ∈ v.parts) : p.WithinLimits d := by
  induction h with
  | null =>
    obtain rfl := List.mem_singleton.1 hp
    exact .null
  | boolean b =>
    obtain rfl := List.mem_singleton.1 hp
    exact .boolean b
  | number hn =>
    obtain rfl := List.mem_singleton.1 hp
    exact .number hn
  | string s =>
    obtain rfl := List.mem_singleton.1 hp
    exact .string s
  | array hxs ih =>
    rcases List.mem_cons.1 hp with rfl | hinside
    · exact .array hxs
    · obtain ⟨x, hx, hpx⟩ := exists_of_mem_partsOfElements hinside
      exact (ih x hx hpx).mono (Nat.le_succ _)
  | object hkeys hms ih =>
    rcases List.mem_cons.1 hp with rfl | hinside
    · exact .object hkeys hms
    · obtain ⟨m, hm, hpm⟩ := exists_of_mem_partsOfMembers hinside
      exact (ih m hm hpm).mono (Nat.le_succ _)

theorem valid (h : v.WithinLimits d) {n : Number} (hn : Json.number n ∈ v.parts) : n.Valid := by
  cases h.part hn with
  | number hvalid => exact hvalid

theorem nodup_keys (h : v.WithinLimits d) {ms : List (String × Json)}
    (hms : Json.object ms ∈ v.parts) : (ms.map Prod.fst).Nodup := by
  cases h.part hms with
  | object hkeys _ => exact hkeys

/-- The members of a value within limits leave one level less. -/
theorem of_mem_members (h : v.WithinLimits (d + 1)) : ∀ m ∈ v.members, m.2.WithinLimits d := by
  cases h with
  | object _ hms => exact hms
  | null | boolean | number | string | array => exact fun m hm ↦ absurd hm List.not_mem_nil

end WithinLimits

/-! ### Values that are read -/

section Reader

variable {d : Nat} {item : Bytes → ReadResult Json}

theorem elements_gives (hitem : ∀ s, Gives (item s) (WithinLimits d)) (bound : Nat) (s : Bytes) :
    Gives (elements item bound s) fun xs ↦ ∀ x ∈ xs, x.WithinLimits d := by
  induction bound generalizing s with
  | zero => exact .error _
  | succ bound ih =>
    unfold elements
    split
    · exact .error _
    next x rest hx =>
    have hfirst := hitem s x rest hx
    split
    · exact .error _
    · exact .ok (List.forall_mem_singleton.2 hfirst)
    · split
      · exact .error _
      · exact .error _
      · split
        · exact .error _
        · next xs _ hxs => exact .ok (List.forall_mem_cons.2 ⟨hfirst, ih _ xs _ hxs⟩)
    · exact .error _

theorem arrayBody_gives (hitem : ∀ s, Gives (item s) (WithinLimits d)) (s : Bytes) :
    Gives (arrayBody item s) (WithinLimits (d + 1)) := by
  unfold arrayBody
  split
  · exact .error _
  · exact .ok (.array fun x hx ↦ absurd hx List.not_mem_nil)
  · split
    · exact .error _
    · next xs _ hxs => exact .ok (.array (elements_gives hitem _ _ xs _ hxs))

theorem member_gives (hitem : ∀ s, Gives (item s) (WithinLimits d)) (s : Bytes) :
    Gives (member item s) fun m ↦ m.2.WithinLimits d := by
  intro m rest h
  rw [member] at h
  obtain ⟨⟨key, s₁⟩, -, h⟩ := exists_of_bind_eq_ok h
  obtain ⟨s₂, -, h⟩ := exists_of_bind_eq_ok h
  obtain ⟨⟨v, s₃⟩, hv, h⟩ := exists_of_bind_eq_ok h
  obtain rfl := (Prod.mk.inj (Except.ok.inj h)).1
  exact hitem s₂ v s₃ hv

theorem memberList_gives (hitem : ∀ s, Gives (item s) (WithinLimits d)) (bound : Nat)
    (s : Bytes) : Gives (memberList item bound s) fun ms ↦ ∀ m ∈ ms, m.2.WithinLimits d := by
  induction bound generalizing s with
  | zero => exact .error _
  | succ bound ih =>
    unfold memberList
    split
    · exact .error _
    next m rest hm =>
    have hfirst := member_gives hitem s m rest hm
    split
    · exact .error _
    · exact .ok (List.forall_mem_singleton.2 hfirst)
    · split
      · exact .error _
      · exact .error _
      · split
        · exact .error _
        · next ms _ hms => exact .ok (List.forall_mem_cons.2 ⟨hfirst, ih _ ms _ hms⟩)
      · exact .error _
    · exact .error _

theorem objectBody_gives (hitem : ∀ s, Gives (item s) (WithinLimits d)) (s : Bytes) :
    Gives (objectBody item s) (WithinLimits (d + 1)) := by
  unfold objectBody
  split
  · exact .error _
  · exact .ok (.object List.nodup_nil fun m hm ↦ absurd hm List.not_mem_nil)
  · split
    · exact .error _
    · next ms _ hms =>
      obtain ⟨hkeys, hmem⟩ := ofMembers_spec ms
      have hall := memberList_gives hitem _ _ ms _ hms
      exact .ok (.object hkeys fun m hm ↦ hall m (hmem m hm))
  · exact .error _

theorem constant_gives {p : Json → Prop} {v : Json} (hv : p v) (letters s : Bytes) :
    Gives (constant letters v s) p := by
  unfold constant
  split
  · exact .ok hv
  · exact .error _

theorem numeral_gives (negative : Bool) (s : Bytes) :
    Gives (numeral negative s) (WithinLimits d) := by
  unfold numeral
  split
  · next n _ hn => exact .ok (.number (Numeral.unsigned_gives_valid negative s n _ hn))
  · exact .error _

/-- **What is read is within the limits of the reader.** -/
theorem value_gives (depth : Nat) (s : Bytes) : Gives (value depth s) (WithinLimits depth) := by
  unfold value
  split
  · exact .error _
  · exact constant_gives .null _ _
  · exact constant_gives (.boolean true) _ _
  · exact constant_gives (.boolean false) _ _
  · exact numeral_gives _ _
  · split
    · exact .ok (.string _)
    · exact .error _
  · cases depth with
    | zero => exact .error _
    | succ depth => exact arrayBody_gives (value_gives depth) _
  · cases depth with
    | zero => exact .error _
    | succ depth => exact objectBody_gives (value_gives depth) _
  · split
    · exact numeral_gives _ _
    · exact .error _

end Reader

theorem withinLimits_of_read {bytes : Bytes} {v : Json} (h : read bytes = .ok v) :
    v.WithinLimits maxDepth := by
  have hdocument : document bytes = .ok v := eq_ok_of_mapError h
  rw [document] at hdocument
  obtain ⟨⟨w, rest⟩, hvalue, hdone⟩ := exists_of_bind_eq_ok hdocument
  dsimp only at hdone
  split at hdone
  · obtain rfl := Except.ok.inj hdone
    exact value_gives maxDepth bytes w rest hvalue
  · exact absurd hdone (by simp [Fault.within])

end Json

/-! ### Walks that give up -/

/-- What the items of a list give, one after another, unless one of them gives up. -/
def gather? {α β : Type} (f : α → Option (List β)) : List α → Option (List β)
  | [] => some []
  | a :: as => (f a).bind fun first ↦ (gather? f as).map (first ++ ·)

theorem gather?_eq_some {α β : Type} {f : α → Option (List β)} {g : α → List β} {as : List α}
    (h : ∀ a ∈ as, f a = some (g a)) : gather? f as = some (as.flatMap g) := by
  induction as with
  | nil => rfl
  | cons a as ih =>
    obtain ⟨ha, has⟩ := List.forall_mem_cons.1 h
    rw [gather?, ha, ih has]
    rfl

namespace Member

/-- Each member of an object is declared on its own. -/
theorem ofMembers_eq_flatMap (below : BlockKind) (ms : List (String × Json)) :
    ofMembers below ms = ms.flatMap fun m ↦ (ofJson? below m.1 m.2).toList := by
  induction ms with
  | nil => rfl
  | cons m ms ih =>
    rw [List.flatMap_cons, ← ih, ofMembers, ofJson?.ofMembers]
    cases ofJson? below m.1 m.2 <;> rfl

/-- The members declared for an object by a walk that gives up where blocks nest deeper than the
bound, the block of the object itself included. -/
def ofMembersWithin? (below : BlockKind) : Nat → List (String × Json) → Option (List Member)
  | 0 => fun _ ↦ none
  | bound + 1 => gather? fun
    | (key, .object ms) =>
      (ofMembersWithin? below bound ms).map fun members ↦
        [nested (C.identifier key) .object below (C.identifier key) members]
    | (key, v) => some (ofJson? below key v).toList

/-- The walk over an object whose members are within limits does not give up. -/
theorem ofMembersWithin?_eq_some (below : BlockKind) {d : Nat} {ms : List (String × Json)}
    (h : ∀ m ∈ ms, m.2.WithinLimits d) :
    ofMembersWithin? below (d + 1) ms = some (ofMembers below ms) := by
  -- nested objects are within one level less, so the induction is on the limit
  induction d generalizing ms with
  | zero =>
    rw [ofMembers_eq_flatMap]
    refine gather?_eq_some fun m hm ↦ ?_
    obtain ⟨key, v⟩ := m
    cases h _ hm <;> rfl
  | succ d ih =>
    rw [ofMembers_eq_flatMap]
    refine gather?_eq_some fun m hm ↦ ?_
    obtain ⟨key, v⟩ := m
    cases h _ hm with
    | object _ hinner => exact congrArg (Option.map _) (ih hinner)
    | null | boolean | number | string | array => rfl

end Member

namespace Assignment

/-- Each member of an object is assigned on its own. -/
theorem ofMembers_eq_flatMap (mode : ArrayInitializer) (path : String)
    (ms : List (String × Json)) :
    ofMembers mode path ms = ms.flatMap fun m ↦ ofJson mode (memberPath path m.1) m.2 := by
  induction ms with
  | nil => rfl
  | cons m ms ih => exact congrArg (ofJson mode (memberPath path m.1) m.2 ++ ·) ih

/-- The assignments for an object by a walk that gives up where blocks nest deeper than the bound,
the block of the object itself included. -/
def ofMembersWithin? (mode : ArrayInitializer) :
    Nat → String → List (String × Json) → Option (List Assignment)
  | 0 => fun _ _ ↦ none
  | bound + 1 => fun path ↦ gather? fun
    | (key, .object ms) => ofMembersWithin? mode bound (memberPath path key) ms
    | (key, v) => some (ofJson mode (memberPath path key) v)

/-- The walk over an object whose members are within limits does not give up. -/
theorem ofMembersWithin?_eq_some (mode : ArrayInitializer) {d : Nat} {path : String}
    {ms : List (String × Json)} (h : ∀ m ∈ ms, m.2.WithinLimits d) :
    ofMembersWithin? mode (d + 1) path ms = some (ofMembers mode path ms) := by
  induction d generalizing path ms with
  | zero =>
    rw [ofMembers_eq_flatMap]
    refine gather?_eq_some fun m hm ↦ ?_
    obtain ⟨key, v⟩ := m
    cases h _ hm <;> rfl
  | succ d ih =>
    rw [ofMembers_eq_flatMap]
    refine gather?_eq_some fun m hm ↦ ?_
    obtain ⟨key, v⟩ := m
    cases h _ hm with
    | object _ hinner => exact ih hinner
    | null | boolean | number | string | array => rfl

end Assignment

/-! ### Values that are loaded -/

namespace Query

/-- Results of a query are read back. -/
theorem withinLimits_of_mem_readBack {results : Results Unit String} {xs : List Json}
    (h : readBack results = .ok xs) : ∀ x ∈ xs, x.WithinLimits Json.maxDepth := by
  induction results generalizing xs with
  | done =>
    obtain rfl := Except.ok.inj h
    exact fun x hx ↦ absurd hx List.not_mem_nil
  | fail e => exact absurd h (by simp [readBack])
  | yield v rest ih =>
    rw [readBack] at h
    split at h
    · exact absurd h (by simp)
    next x hx =>
    split at h
    · next ys hys =>
      obtain rfl := Except.ok.inj h
      exact List.forall_mem_cons.2 ⟨Json.withinLimits_of_read hx, ih () hys⟩
    · exact absurd h (by simp)

/-- Whatever interpreter runs a query, its results are documents that the reader accepts. -/
theorem withinLimits_of_mem_run [Interpreter] {text : String} {input : Json} {xs : List Json}
    (h : run text input = .ok xs) : ∀ x ∈ xs, x.WithinLimits Json.maxDepth := by
  rw [run] at h
  split at h
  · exact absurd h (by simp)
  · exact withinLimits_of_mem_readBack h

end Query

namespace Document

variable {options : Options} {bytes : Bytes} {v w : Json}

theorem withinLimits_of_point (hv : v.WithinLimits Json.maxDepth)
    (h : point options v = .ok w) : w.WithinLimits Json.maxDepth := by
  rw [point] at h
  split at h
  · obtain rfl := Except.ok.inj h
    exact hv
  split at h
  · next part hpart =>
    obtain rfl := Except.ok.inj h
    exact hv.select? hpart
  · exact absurd h (by simp)

theorem withinLimits_of_query [Query.Interpreter] (hv : v.WithinLimits Json.maxDepth)
    (h : query options v = .ok w) : w.WithinLimits Json.maxDepth := by
  rw [query] at h
  split at h
  · obtain rfl := Except.ok.inj h
    exact hv
  rw [querySingle] at h
  split at h
  · exact absurd h (by simp)
  · next x hrun =>
    obtain rfl := Except.ok.inj h
    exact Query.withinLimits_of_mem_run hrun x List.mem_cons_self
  · exact absurd h (by simp)

/-- **What is loaded is within the limits of the reader**, whatever pointer and query select it and
whatever interpreter runs the query. -/
theorem withinLimits_of_load [Query.Interpreter] (h : load options bytes = .ok v) :
    v.WithinLimits Json.maxDepth := by
  rw [load] at h
  obtain ⟨read, hread, h⟩ := exists_of_bind_eq_ok h
  obtain ⟨part, hpart, hquery⟩ := exists_of_bind_eq_ok h
  have hlimits := Json.withinLimits_of_read (eq_ok_of_mapError hread)
  exact withinLimits_of_query (withinLimits_of_point hlimits hpart) hquery

/-- **Loaded values are well formed**, whatever the document, the pointer and the query are, and
whatever the interpreter makes of the query: an interpreter may print anything, but what it prints
is read back. In a loaded value at most 127 containers nest; every number is within its format, so
in particular finite, and has a tag; the keys of every object are distinct. So neither walk over a
loaded value calls itself more than 127 deep: walks that give up there give the same. -/
theorem wellFormed_of_load [Query.Interpreter] (h : load options bytes = .ok v) :
    v.depth ≤ 127 ∧
      (∀ n, .number n ∈ v.parts → n.Valid ∧ (n.tag = .int ∨ n.tag = .float)) ∧
      (∀ ms, .object ms ∈ v.parts → (ms.map Prod.fst).Nodup) ∧
      (∀ below, Member.ofMembersWithin? below 127 v.members =
        some (Member.ofMembers below v.members)) ∧
      ∀ mode path, Assignment.ofMembersWithin? mode 127 path v.members =
        some (Assignment.ofMembers mode path v.members) := by
  have hlimits : v.WithinLimits 127 := withinLimits_of_load h
  have hmembers : ∀ m ∈ v.members, m.2.WithinLimits 126 := hlimits.of_mem_members
  exact ⟨hlimits.depth_le, fun n hn ↦ ⟨hlimits.valid hn, Json.numberTag_cases n⟩,
    fun ms hms ↦ hlimits.nodup_keys hms,
    fun below ↦ Member.ofMembersWithin?_eq_some below hmembers,
    fun mode path ↦ Assignment.ofMembersWithin?_eq_some mode hmembers⟩

/-- A repeated key keeps its place and takes its last value, also below a pointer and in what a
query builds. -/
theorem wellFormed_of_load_selected :
    let options : Options := { pointer := some "/p", filter := some "[.]" }
    ∃ v, load options (Utf8.encode "\x7b\"p\": \x7b\"a\": 1, \"b\": 2, \"a\": [0.5]\x7d\x7d") =
        .ok v ∧
      v.compact = "[\x7b\"a\":[0.5],\"b\":2\x7d]" ∧ v.depth ≤ 127 ∧
      Member.ofMembersWithin? .union 127 v.members = some (Member.ofMembers .union v.members) := by
  intro options
  have htext : (load options (Utf8.encode
      "\x7b\"p\": \x7b\"a\": 1, \"b\": 2, \"a\": [0.5]\x7d\x7d")).toOption.map Json.compact =
      some "[\x7b\"a\":[0.5],\"b\":2\x7d]" := by decide +kernel
  rcases hload : load options _ with e | v <;> rw [hload] at htext
  · exact absurd htext (by simp [Except.toOption])
  · obtain ⟨hdepth, -, -, hwalk, -⟩ := wellFormed_of_load hload
    exact ⟨v, rfl, Option.some.inj htext, hdepth, hwalk .union⟩

end Document

end JsonEmbed
