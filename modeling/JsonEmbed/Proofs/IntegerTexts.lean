import JsonEmbed.Proofs.Denotation
import JsonEmbed.Proofs.Leaves
import JsonEmbed.Proofs.Limits

/-!
# Integer slots and integer texts

The tag of a number and its text decide by different tests whether it is an integer: the tag asks
whether the number is integral, and the text also whether it is in the range of the integers of 64
bits. The tests agree on integers, and on doubles in this range; integral doubles beyond it, and
these are all doubles there, have the tag of an integer and a text with an exponent
(`integer_texts_follow_tags`).

In a program this says which slots are set to integer texts. Slots of the type `float` never are,
unless array elements are set to their indices, and slots of the type `int` always are, unless their
number is a double out of range (`FillsNumber`).
-/

namespace JsonEmbed

/-! ### Integral doubles -/

namespace Binary64

theorem abs_value (x : Binary64) : |x.value| = x.units / scale := by
  have hunits : |((x.toUnits : Int) : ℚ)| = x.units := by
    rw [toUnits]
    split
    · rw [Int.cast_neg, abs_neg, Int.cast_natCast, Nat.abs_cast]
    · rw [Int.cast_natCast, Nat.abs_cast]
  rw [value, abs_div, hunits, abs_of_pos cast_scale_pos]

/-- From `2 ^ 52` on, all doubles are integral. -/
theorem isIntegral_of_le {x : Binary64} (h : Representable x.units)
    (hle : 2 ^ 52 * scale ≤ x.units) : x.IsIntegral := by
  obtain ⟨k, hk⟩ : ∃ k, scale = 2 ^ k := ⟨1074, scale_eq⟩
  rw [hk] at hle
  rw [IsIntegral, hk]
  exact two_pow_dvd_of_le h.2 fun _ ↦ hle

end Binary64

/-! ### Integer texts -/

/-- The text is digits behind a minus sign or none. -/
def IsIntegerText (text : String) : Prop :=
  (plainInteger? text).isSome = true

instance (text : String) : Decidable (IsIntegerText text) :=
  inferInstanceAs (Decidable (_ = true))

theorem isIntegerText_decimalText (i : Int) : IsIntegerText (decimalText i) := by
  rw [IsIntegerText, plainInteger?_decimalText]
  rfl

theorem isIntegerText_repr (n : Nat) : IsIntegerText (Nat.repr n) :=
  isIntegerText_decimalText n

namespace Number

/-- A number in the range of the integers of 64 bits. Every number that is no double is. -/
def InRange : Number → Prop
  | integer _ => True
  | double x => -2 ^ 63 ≤ x.value ∧ x.value < 2 ^ 63

/-- A double beyond that range on either side. -/
def BeyondRange : Number → Prop
  | integer _ => False
  | double x => 2 ^ 63 < |x.value|

theorem tag_double_eq_int_iff {x : Binary64} : (double x).tag = .int ↔ x.IsIntegral := by
  rw [tag]
  split
  · next h => exact iff_of_true rfl h
  · next h => exact iff_of_false (by decide) h

/-- The doubles with integer texts are the integral ones within the range and at its bound. -/
theorem isIntegerText_cText_double {x : Binary64} (h : Binary64.Representable x.units) :
    IsIntegerText (double x).cText ↔
      x.IsIntegral ∧ -(2 ^ 63 : Int) ≤ x.truncate ∧ x.truncate ≤ 2 ^ 63 := by
  rw [cText]
  split
  · next hrange => exact iff_of_true (isIntegerText_decimalText _) hrange
  · next hrange =>
    refine iff_of_false ?_ hrange
    rw [IsIntegerText, FloatFormat.plainInteger?_text h.1]
    exact Bool.false_ne_true

variable {n : Number} (h : n.Valid)

include h

theorem tag_eq_int_of_isIntegerText (htext : IsIntegerText n.cText) : n.tag = .int := by
  cases n with
  | integer i => rfl
  | double x =>
    exact tag_double_eq_int_iff.2 ((isIntegerText_cText_double (valid_double.1 h)).1 htext).1

/-- In range, a number with the tag of an integer has an integer text. -/
theorem isIntegerText_of_inRange (hrange : n.InRange) (htag : n.tag = .int) :
    IsIntegerText n.cText := by
  cases n with
  | integer i => exact isIntegerText_decimalText i
  | double x =>
    have hintegral := tag_double_eq_int_iff.1 htag
    rw [InRange, Binary64.value_eq_truncate hintegral] at hrange
    have hlow : -(2 ^ 63 : Int) ≤ x.truncate := by exact_mod_cast hrange.1
    have hhigh : x.truncate ≤ 2 ^ 63 := by exact_mod_cast hrange.2.le
    exact (isIntegerText_cText_double (valid_double.1 h)).2 ⟨hintegral, hlow, hhigh⟩

/-- Beyond the range, a double is integral, but has no integer text. -/
theorem of_beyondRange (hbeyond : n.BeyondRange) : n.tag = .int ∧ ¬IsIntegerText n.cText := by
  cases n with
  | integer i => exact hbeyond.elim
  | double x =>
    have hx := valid_double.1 h
    have hunits : 2 ^ 63 * Binary64.scale < x.units := by
      rw [BeyondRange, Binary64.abs_value, lt_div_iff₀ Binary64.cast_scale_pos] at hbeyond
      exact_mod_cast hbeyond
    have hintegral : x.IsIntegral :=
      Binary64.isIntegral_of_le hx ((Nat.mul_le_mul_right _ (by decide)).trans hunits.le)
    refine ⟨tag_double_eq_int_iff.2 hintegral, fun htext ↦ ?_⟩
    obtain ⟨-, hlow, hhigh⟩ := (isIntegerText_cText_double hx).1 htext
    rw [BeyondRange, Binary64.value_eq_truncate hintegral, lt_abs] at hbeyond
    rcases hbeyond with habove | hbelow
    · have hlt : (2 ^ 63 : Int) < x.truncate := by exact_mod_cast habove
      omega
    · have hlt : (2 ^ 63 : Int) < -x.truncate := by exact_mod_cast hbelow
      omega

end Number

/-! ### Slots of numbers -/

namespace Json

/-- Leaves of a value within limits are within the same limits. -/
theorem withinLimits_of_mem_leavesOf {d : Nat} {ms : List (String × Json)}
    (h : ∀ m ∈ ms, m.2.WithinLimits d) {l : Leaf} (hl : l ∈ leavesOf ms) :
    l.value.WithinLimits d := by
  induction ms using membersInduction generalizing l with
  | nil => exact absurd hl List.not_mem_nil
  | object key ms rest ih ihrest =>
    obtain ⟨hms, hrest⟩ := List.forall_mem_cons.1 h
    rw [leavesOf_object, List.mem_append] at hl
    rcases hl with hl | hl
    · obtain ⟨k, hk, rfl⟩ := List.mem_map.1 hl
      cases hms with
      | object _ hms => exact ih (l := k) (fun m hm ↦ (hms m hm).mono (Nat.le_succ _)) hk
    · exact ihrest hrest hl
  | array key xs t rest ht ih =>
    obtain ⟨hxs, hrest⟩ := List.forall_mem_cons.1 h
    rw [leavesOf_array _ _ ht, List.mem_append] at hl
    rcases hl with hl | hl
    · obtain ⟨x, hx, rfl⟩ := List.mem_map.1 hl
      cases hxs with
      | array hxs => exact (hxs x.1 (List.fst_mem_of_mem_zipIdx hx)).mono (Nat.le_succ _)
    · exact ih hrest hl
  | scalar key v t rest ht ih =>
    obtain ⟨hv, hrest⟩ := List.forall_mem_cons.1 h
    rw [leavesOf_scalar _ _ ht, List.mem_cons] at hl
    rcases hl with rfl | hl
    · exact hv
    · exact ih hrest hl
  | dropped key v rest ht ih =>
    rw [leavesOf_dropped _ _ ht] at hl
    exact ih (List.forall_mem_cons.1 h).2 hl

/-- A value with the tag of a number is a number. -/
theorem exists_number_of_tag {v : Json} {t : Tag} (hv : v.scalarTag? = some t)
    (ht : t = .int ∨ t = .float) : ∃ n, v = .number n ∧ n.tag = t := by
  cases v with
  | null | array | object => simp [scalarTag?] at hv
  | boolean | string =>
    obtain rfl := Option.some.inj hv
    exact absurd ht (by simp)
  | number n => exact ⟨n, rfl, Option.some.inj hv⟩

end Json

/-- What a slot of a number is set to. A `float` slot is set to an integer text if and only if it is
set to its index. An `int` slot is set to one if its number is in range. -/
structure FillsNumber (mode : ArrayInitializer) (path : String) (c : Cell) (l : Leaf)
    (a : Assignment) : Prop where
  address : c.address = l.address
  target : a.target = path ++ c.address.text
  float : c.tag = .float → ∃ text, a.value = .number text ∧
    (IsIntegerText text ↔ mode = .indices ∧ l.index ≠ none)
  int : c.tag = .int → ∃ n text, l.value = .number n ∧ a.value = .number text ∧
    (n.InRange → IsIntegerText text)

namespace Leaf

/-- The literal of a number is its text, or the index of an element that is set to its index. -/
theorem literal_cases (mode : ArrayInitializer) (l : Leaf) :
    l.literal mode = .ofJson l.value ∧ ¬(mode = .indices ∧ l.index ≠ none) ∨
      (mode = .indices ∧ l.index ≠ none) ∧ ∃ i, l.literal mode = .number (Nat.repr i) := by
  obtain ⟨keys, index, value⟩ := l
  rcases index with - | i
  · exact Or.inl ⟨rfl, by simp⟩
  · cases mode with
    | values => exact Or.inl ⟨rfl, by simp⟩
    | indices => exact Or.inr ⟨by simp, i, rfl⟩

/-- Every leaf fills its slot as the tag of the slot says. -/
theorem fillsNumber {d : Nat} (mode : ArrayInitializer) (path : String) {l : Leaf} {t : Tag}
    (hlimits : l.value.WithinLimits d) (ht : l.value.scalarTag? = some t) :
    FillsNumber mode path l.cell l (l.assignment mode path) := by
  have hcell : l.cell.tag = t := Json.tag_of_scalarTag? ht
  have hvalid : ∀ n, l.value = .number n → n.Valid := by
    intro n hn
    rw [hn] at hlimits
    cases hlimits with
    | number hvalid => exact hvalid
  refine ⟨rfl, rfl, fun hfloat ↦ ?_, fun hint ↦ ?_⟩
  · obtain rfl : t = .float := hcell.symm.trans hfloat
    obtain ⟨n, hn, htag⟩ := Json.exists_number_of_tag ht (Or.inr rfl)
    rcases literal_cases mode l with ⟨hliteral, hvalues⟩ | ⟨hindices, i, hliteral⟩
    · have htext : ¬IsIntegerText n.cText := by
        intro htext
        have hint := Number.tag_eq_int_of_isIntegerText (hvalid n hn) htext
        exact absurd (hint.symm.trans htag) (by decide)
      exact ⟨n.cText, hliteral.trans (congrArg _ hn), iff_of_false htext hvalues⟩
    · exact ⟨Nat.repr i, hliteral, iff_of_true (isIntegerText_repr i) hindices⟩
  · obtain rfl : t = .int := hcell.symm.trans hint
    obtain ⟨n, hn, htag⟩ := Json.exists_number_of_tag ht (Or.inl rfl)
    rcases literal_cases mode l with ⟨hliteral, -⟩ | ⟨-, i, hliteral⟩
    · exact ⟨n, n.cText, hn, hliteral.trans (congrArg _ hn),
        fun hrange ↦ Number.isIntegerText_of_inRange (hvalid n hn) hrange htag⟩
    · exact ⟨n, Nat.repr i, hn, hliteral, fun _ ↦ isIntegerText_repr i⟩

end Leaf

/-- **Integer texts follow integer tags.** A number with an integer text has the tag of an integer;
in the range of the integers of 64 bits the converse holds; and a double beyond this range has the
tag of an integer and no integer text. So in a program for a value within limits, slots of numbers
are set to integer texts as `FillsNumber` says. -/
theorem integer_texts_follow_tags {n : Number} (hn : n.Valid) (options : Options) (depth : Nat)
    (name path : String) {d : Nat} {ms : List (String × Json)}
    (hms : (Json.object ms).WithinLimits d) :
    ((IsIntegerText n.cText → n.tag = .int) ∧
      (n.InRange → (n.tag = .int ↔ IsIntegerText n.cText)) ∧
      (n.BeyondRange → n.tag = .int ∧ ¬IsIntegerText n.cText)) ∧
    List.Forall₂ (fun c p ↦ FillsNumber options.arrayInitializer path c p.1 p.2)
      (Block.ofMembers options depth name ms).cells
      ((Json.leavesOf ms).zip (Assignment.ofMembers options.arrayInitializer path ms)) := by
  have hint := Number.tag_eq_int_of_isIntegerText hn
  refine ⟨⟨hint, fun hrange ↦ ⟨Number.isIntegerText_of_inRange hn hrange, hint⟩,
    Number.of_beyondRange hn⟩, ?_⟩
  have hcells : (Block.ofMembers options depth name ms).cells =
      (Json.leavesOf ms).map Leaf.cell := Member.cellsOfAll_ofMembers _ ms
  rw [hcells, Assignment.ofMembers_eq_map_leaves, ← List.map_prod_left_eq_zip,
    List.forall₂_map_left_iff, List.forall₂_map_right_iff, List.forall₂_same]
  intro l hl
  obtain ⟨t, ht⟩ := Json.exists_scalarTag?_of_mem_leavesOf hl
  cases hms with
  | object _ hms =>
    exact Leaf.fillsNumber options.arrayInitializer path (Json.withinLimits_of_mem_leavesOf hms hl)
      ht

/-- The least double in the range, and a document with one integer. -/
theorem integer_texts_follow_tags_least :
    (Number.double (.ofInt (-2 ^ 63))).Valid ∧
      (Number.double (.ofInt (-2 ^ 63))).tag = .int ∧
      (Json.object [("x", .number (.integer 7))]).WithinLimits 1 ∧
      ∃ text, (Assignment.ofMembers .values "r" [("x", .number (.integer 7))]).map
        Assignment.value = [.number text] ∧ IsIntegerText text := by
  have hvalid : (Number.double (.ofInt (-2 ^ 63))).Valid :=
    Number.valid_double.2 (by decide +kernel)
  have hlimits : (Json.object [("x", .number (.integer 7))]).WithinLimits 1 :=
    .object (by decide) (List.forall_mem_singleton.2 (.number (Number.valid_integer.2 (by decide))))
  obtain ⟨hnumber, hslots⟩ := integer_texts_follow_tags hvalid {} 0 "r" "r" hlimits
  obtain ⟨n, text, hn, htext, hinteger⟩ := (List.forall₂_cons.1 hslots).1.int rfl
  obtain rfl := Json.number.inj hn
  refine ⟨hvalid, hnumber.1 (by decide +kernel), hlimits, text, ?_, hinteger trivial⟩
  exact congrArg (fun l ↦ [l]) htext

/-- An integral double beyond the range has an exponent in its text, and elements of the type
`float` can be set to their indices. -/
theorem exists_integer_without_integer_text :
    ((Number.double (.ofInt (10 ^ 19))).Valid ∧ (Number.double (.ofInt (10 ^ 19))).tag = .int ∧
      (Number.double (.ofInt (10 ^ 19))).cText = "1e+19" ∧
      ¬IsIntegerText (Number.double (.ofInt (10 ^ 19))).cText) ∧
    let ms : List (String × Json) := [("xs", .array [.number (.double ⟨false, Nat.pow 2 1073⟩)])]
    (Block.ofMembers { arrayInitializer := .indices } 0 "r" ms).cells.map Cell.tag = [.float] ∧
      (Assignment.ofMembers .indices "r" ms).map Assignment.value = [.number "0"] ∧
      IsIntegerText "0" := by
  exact ⟨⟨Number.valid_double.2 (by decide +kernel), by decide +kernel, by decide +kernel,
    by decide +kernel⟩, by decide +kernel, by decide +kernel, by decide⟩

end JsonEmbed
