import JsonEmbed.Json.Numeral
import JsonEmbed.Number.Format
import JsonEmbed.Proofs.Encoding

/-!
# Reading the text of a number

A run of decimal digits is read into its value as long as the value fits, and reading stops at the
first byte that is no digit. A `Spelling` is a number that is no integer by its text: digits, maybe
more digits after a point, maybe an exponent, but at least one of the two. All its digits together
are the significand that is read, and what its exponent says less the digits after the point is the
power of ten (`Spelling.unsigned_chars`).

Integers are read back exactly (`Numeral.unsigned_toDigits`), and every binary64 number is written
in a spelling (`Binary64.magnitude_eq`).
-/

namespace JsonEmbed

/-- A text of decimal digits. -/
def IsDigits (cs : List Char) : Prop :=
  ∀ c ∈ cs, c.isDigit = true

namespace IsDigits

theorem toDigits (n : Nat) : IsDigits (Nat.toDigits 10 n) :=
  fun _ h ↦ Nat.isDigit_of_mem_toDigits (by decide) (by decide) h

theorem zeros (n : Nat) : IsDigits (List.replicate n '0') := by
  intro c hc
  rw [List.eq_of_mem_replicate hc]
  rfl

theorem append {as bs : List Char} (ha : IsDigits as) (hb : IsDigits bs) : IsDigits (as ++ bs) :=
  List.forall_mem_append.2 ⟨ha, hb⟩

theorem of_subset {as bs : List Char} (h : as ⊆ bs) (hb : IsDigits bs) : IsDigits as :=
  fun c hc ↦ hb c (h hc)

end IsDigits

theorem digit_ne {c d : Char} (hc : c.isDigit = true) (hd : d.isDigit = false) : c ≠ d := by
  rintro rfl
  exact Bool.false_ne_true (hd.symm.trans hc)

/-- The value of further digits is no less than that of the digits before. -/
theorem le_ofDigitChars (cs : List Char) (n : Nat) : n ≤ Nat.ofDigitChars 10 cs n := by
  rw [Nat.ofDigitChars_eq_ofDigitChars_zero]
  have hpow : 0 < 10 ^ cs.length := Nat.pow_pos (by decide)
  have hmul : n ≤ 10 ^ cs.length * n := Nat.le_mul_of_pos_left n hpow
  omega

/-- Digits that a number may begin with: a zero stands alone. -/
def IsLeading (cs : List Char) : Prop :=
  cs = ['0'] ∨ ∃ c rest, cs = c :: rest ∧ c ≠ '0'

theorem IsLeading.ne_nil {cs : List Char} (h : IsLeading cs) : cs ≠ [] := by
  rcases h with rfl | ⟨c, rest, rfl, -⟩ <;> exact List.cons_ne_nil _ _

/-- A positive number is not written with a leading zero. -/
theorem head_toDigits_ne_zero {n : Nat} (h : 0 < n) :
    ∃ c rest, Nat.toDigits 10 n = c :: rest ∧ c ≠ '0' := by
  induction n using Nat.strongRecOn with
  | ind n ih =>
    rcases Nat.lt_or_ge n 10 with hlt | hge
    · have hc : n.digitChar ≠ '0' := fun hzero ↦ Nat.ne_of_gt h (Nat.digitChar_eq_zero.1 hzero)
      exact ⟨n.digitChar, [], Nat.toDigits_of_lt_base hlt, hc⟩
    · obtain ⟨c, rest, hdigits, hc⟩ := ih (n / 10) (by omega) (by omega)
      refine ⟨c, rest ++ [(n % 10).digitChar], ?_, hc⟩
      rw [Nat.toDigits_of_base_le (by decide) hge, hdigits, List.cons_append]

theorem isLeading_toDigits (n : Nat) : IsLeading (Nat.toDigits 10 n) := by
  rcases Nat.eq_zero_or_pos n with rfl | hpos
  · exact Or.inl rfl
  · exact Or.inr (head_toDigits_ne_zero hpos)

namespace Numeral

/-! ### Runs of digits -/

/-- A digit has one byte. -/
theorem exists_byte_of_isDigit {c : Char} (h : c.isDigit = true) :
    ∃ b, String.utf8EncodeChar c = [b] ∧ digit? b = some (c.toNat - '0'.toNat) := by
  obtain ⟨hlow, hhigh⟩ : 0x30 ≤ c.toNat ∧ c.toNat ≤ 0x39 := Char.isDigit_iff_toNat.1 h
  refine ⟨UInt8.ofNat c.toNat, Utf8.utf8EncodeChar_of_lt (by omega), ?_⟩
  rw [digit?, Utf8.toNat_ofNat (by omega)]
  exact if_pos ⟨hlow, hhigh⟩

section Digits

variable {cs : List Char} (hcs : IsDigits cs) {s : Bytes} (hs : startsWithDigit s = false)

include hs

theorem digit?_head {b : UInt8} {t : Bytes} (h : s = b :: t) : digit? b = none := by
  subst h
  rw [startsWithDigit, isDigit] at hs
  exact Option.not_isSome_iff_eq_none.1 (by simp [hs])

include hcs

/-- Digits are taken as long as their value fits. -/
theorem accumulate_bytes {significand : Nat}
    (hfits : Nat.ofDigitChars 10 cs significand ≤ maxSignificand) :
    accumulate significand (Utf8.bytes cs ++ s) =
      (Nat.ofDigitChars 10 cs significand, cs.length, s) := by
  induction cs generalizing significand with
  | nil =>
    rw [Nat.ofDigitChars_nil]
    cases s with
    | nil => rfl
    | cons b t =>
      show accumulate significand (b :: t) = _
      rw [accumulate, digit?_head hs rfl]
      rfl
  | cons c cs ih =>
    obtain ⟨hc, hrest⟩ := List.forall_mem_cons.1 hcs
    obtain ⟨b, hb, hdigit⟩ := exists_byte_of_isDigit hc
    rw [Nat.ofDigitChars_cons, Nat.mul_comm] at hfits ⊢
    have hstep := Nat.le_trans (le_ofDigitChars cs _) hfits
    rw [Utf8.bytes_cons, hb, List.cons_append, List.nil_append, List.cons_append, accumulate,
      hdigit]
    simp only [if_pos hstep, ih hrest hfits, List.length_cons]

theorem exponentDigits_bytes {value : Nat} (hfits : Nat.ofDigitChars 10 cs value ≤ maxExponent) :
    exponentDigits value (Utf8.bytes cs ++ s) = .ok (Nat.ofDigitChars 10 cs value, s) := by
  induction cs generalizing value with
  | nil =>
    rw [Nat.ofDigitChars_nil]
    cases s with
    | nil => rfl
    | cons b t =>
      show exponentDigits value (b :: t) = _
      rw [exponentDigits, digit?_head hs rfl]
  | cons c cs ih =>
    obtain ⟨hc, hrest⟩ := List.forall_mem_cons.1 hcs
    obtain ⟨b, hb, hdigit⟩ := exists_byte_of_isDigit hc
    rw [Nat.ofDigitChars_cons, Nat.mul_comm] at hfits ⊢
    have hstep := Nat.le_trans (le_ofDigitChars cs _) hfits
    rw [Utf8.bytes_cons, hb, List.cons_append, List.nil_append, List.cons_append, exponentDigits,
      hdigit]
    simp only [if_pos hstep, ih hrest hfits]

end Digits

/-- The text does not go on as a number does. -/
def IsEnd (s : Bytes) : Prop :=
  startsWithDigit s = false ∧ ∀ t, s ≠ 0x2e :: t ∧ s ≠ 0x65 :: t ∧ s ≠ 0x45 :: t

section Parts

variable (negative : Bool) {cs : List Char} (hcs : IsDigits cs) {s : Bytes}

theorem afterDigits_end (significand : Nat) (shift : Int) (hs : IsEnd s) :
    afterDigits negative significand shift s = double negative significand shift s := by
  unfold afterDigits
  split
  · next t => exact absurd rfl (hs.2 t).2.1
  · next t => exact absurd rfl (hs.2 t).2.2
  · rfl

theorem afterInteger_end (significand : Nat) (hs : IsEnd s) :
    afterInteger negative significand s = .ok (whole negative significand, s) := by
  unfold afterInteger
  split
  · next t => exact absurd rfl (hs.2 t).1
  · next t => exact absurd rfl (hs.2 t).2.1
  · next t => exact absurd rfl (hs.2 t).2.2
  · rfl

include hcs

/-- The digits that a number begins with are its integer part. -/
theorem unsigned_bytes (hleading : IsLeading cs) (hs : startsWithDigit s = false)
    (hfits : Nat.ofDigitChars 10 cs 0 ≤ maxSignificand) :
    unsigned negative (Utf8.bytes cs ++ s) =
      afterInteger negative (Nat.ofDigitChars 10 cs 0) s := by
  rcases hleading with rfl | ⟨c, rest, rfl, hc⟩
  · show unsigned negative (0x30 :: s) = afterInteger negative 0 s
    rw [unsigned]
    simp [digit?, hs]
  · obtain ⟨hdigit, hrest⟩ := List.forall_mem_cons.1 hcs
    obtain ⟨b, hb, hvalue⟩ := exists_byte_of_isDigit hdigit
    have hzero : c.toNat - '0'.toNat ≠ 0 := by
      have hlow : 0x30 ≤ c.toNat := (Char.isDigit_iff_toNat.1 hdigit).1
      have hne : c.toNat ≠ 0x30 := fun h ↦ hc (Char.toNat_inj.1 h)
      show c.toNat - 0x30 ≠ 0
      omega
    rw [Nat.ofDigitChars_cons, Nat.mul_zero, Nat.zero_add] at hfits ⊢
    rw [Utf8.bytes_cons, hb, List.cons_append, List.nil_append, List.cons_append, unsigned, hvalue]
    generalize c.toNat - '0'.toNat = d at hzero hfits ⊢
    obtain ⟨d, rfl⟩ := Nat.exists_eq_succ_of_ne_zero hzero
    simp only [accumulate_bytes hrest hs hfits, hs, Bool.false_eq_true, if_false]

omit hcs in
/-- An integer that fits is read back exactly. -/
theorem unsigned_toDigits {n : Nat} (hn : n ≤ maxSignificand) (hs : IsEnd s) :
    unsigned negative (Utf8.bytes (Nat.toDigits 10 n) ++ s) = .ok (whole negative n, s) := by
  have hvalue : Nat.ofDigitChars 10 (Nat.toDigits 10 n) 0 = n := Nat.ofDigitChars_ten_toDigits
  rw [unsigned_bytes negative (.toDigits n) (isLeading_toDigits n) hs.1 (hvalue.symm ▸ hn), hvalue]
  exact afterInteger_end negative n hs

/-- The digits after a point go on with the significand. -/
theorem fractionPart_bytes (hne : cs ≠ []) (hs : startsWithDigit s = false) {significand : Nat}
    (shift : Int) (hfits : Nat.ofDigitChars 10 cs significand ≤ maxSignificand) :
    fractionPart negative significand shift (Utf8.bytes cs ++ s) =
      afterDigits negative (Nat.ofDigitChars 10 cs significand) (shift - cs.length) s := by
  have hlength : cs.length ≠ 0 := fun h ↦ hne (List.length_eq_zero_iff.1 h)
  rw [fractionPart, accumulate_bytes hcs hs hfits]
  simp only [hs, Bool.false_eq_true, if_false, if_neg hlength]

omit hcs

/-- What is written for an exponent is read as this exponent. -/
theorem exponentPart_bytes {e : Int} (he : e.natAbs ≤ maxExponent)
    (hs : startsWithDigit s = false) (significand : Nat) (shift : Int) :
    exponentPart negative significand shift
        (Utf8.bytes ((if e < 0 then '-' else '+') :: Nat.toDigits 10 e.natAbs) ++ s) =
      double negative significand (shift + e) s := by
  have hdigits : IsDigits (Nat.toDigits 10 e.natAbs) := .toDigits _
  have hvalue : Nat.ofDigitChars 10 (Nat.toDigits 10 e.natAbs) 0 = e.natAbs :=
    Nat.ofDigitChars_ten_toDigits
  obtain ⟨c, rest, htext⟩ := List.exists_cons_of_ne_nil
    (Nat.toDigits_ne_nil (n := e.natAbs) (b := 10))
  rw [htext] at hdigits hvalue ⊢
  obtain ⟨hc, hrest⟩ := List.forall_mem_cons.1 hdigits
  obtain ⟨b, hb, hd⟩ := exists_byte_of_isDigit hc
  rw [Nat.ofDigitChars_cons, Nat.mul_zero, Nat.zero_add] at hvalue
  have hrun := exponentDigits_bytes hrest hs (hvalue ▸ he)
  rw [hvalue] at hrun
  have hsign : exponentPart negative significand shift
      (Utf8.bytes ((if e < 0 then '-' else '+') :: c :: rest) ++ s) =
        double negative significand (if e < 0 then shift - e.natAbs else shift + e.natAbs) s := by
    split
    · show exponentPart negative significand shift (0x2d :: (Utf8.bytes (c :: rest) ++ s)) = _
      rw [Utf8.bytes_cons, hb]
      unfold exponentPart
      simp only [List.cons_append, List.nil_append, hd, hrun, if_true]
    · show exponentPart negative significand shift (0x2b :: (Utf8.bytes (c :: rest) ++ s)) = _
      rw [Utf8.bytes_cons, hb]
      unfold exponentPart
      simp only [List.cons_append, List.nil_append, hd, hrun, Bool.false_eq_true, if_false]
  rw [hsign]
  congr 1
  split <;> omega

end Parts

end Numeral

/-! ### Spellings -/

/-- The text of a number with a fraction or an exponent. -/
structure Spelling where
  /-- The digits before the point. -/
  whole : List Char
  /-- The digits after the point; without any there is no point. -/
  fraction : List Char
  exponent : Option Int

namespace Spelling

open Numeral

/-- The text from the point to the last digit after it. -/
def fractionChars (p : Spelling) : List Char :=
  match p.fraction with
  | [] => []
  | c :: cs => '.' :: c :: cs

/-- The text from the letter of the exponent on. The exponent has a sign. -/
def exponentChars (p : Spelling) : List Char :=
  match p.exponent with
  | none => []
  | some e => 'e' :: (if e < 0 then '-' else '+') :: Nat.toDigits 10 e.natAbs

/-- The whole text. -/
def chars (p : Spelling) : List Char :=
  p.whole ++ (p.fractionChars ++ p.exponentChars)

/-- The significand: the value of all digits. -/
def significand (p : Spelling) : Nat :=
  Nat.ofDigitChars 10 (p.whole ++ p.fraction) 0

/-- The power of ten. -/
def shift (p : Spelling) : Int :=
  p.exponent.getD 0 - p.fraction.length

/-- The spelling is a number that is read without loss and is no integer by its text. -/
structure IsFraction (p : Spelling) : Prop where
  whole_digits : IsDigits p.whole
  fraction_digits : IsDigits p.fraction
  leading : IsLeading p.whole
  significand_le : p.significand ≤ maxSignificand
  exponent_le : ∀ e ∈ p.exponent, e.natAbs ≤ maxExponent
  marked : p.fraction ≠ [] ∨ p.exponent.isSome

variable {p : Spelling} (h : p.IsFraction) {s : Bytes} (hs : IsEnd s)

include h hs

/-- After the digits, the exponent is read if there is one. -/
theorem afterDigits_exponentChars (negative : Bool) (significand : Nat) (shift : Int) :
    afterDigits negative significand shift (Utf8.bytes p.exponentChars ++ s) =
      double negative significand (shift + p.exponent.getD 0) s := by
  rw [exponentChars]
  cases hexponent : p.exponent with
  | none =>
    rw [Option.getD_none, Int.add_zero]
    exact afterDigits_end negative significand shift hs
  | some e => exact exponentPart_bytes negative (h.exponent_le e hexponent) hs.1 significand shift

omit h in
theorem startsWithDigit_exponentChars :
    startsWithDigit (Utf8.bytes p.exponentChars ++ s) = false := by
  rw [exponentChars]
  cases p.exponent with
  | none => exact hs.1
  | some e => rfl

/-- **A spelling is read as its significand times its power of ten.** -/
theorem unsigned_chars (negative : Bool) :
    unsigned negative (Utf8.bytes p.chars ++ s) = double negative p.significand p.shift s := by
  have hvalue : p.significand = Nat.ofDigitChars 10 p.fraction (Nat.ofDigitChars 10 p.whole 0) :=
    Nat.ofDigitChars_append 0
  have hfits := h.significand_le
  rw [hvalue] at hfits
  have hwhole := Nat.le_trans (le_ofDigitChars p.fraction _) hfits
  rw [chars, Utf8.bytes_append, List.append_assoc, Utf8.bytes_append, List.append_assoc, shift,
    hvalue]
  have hdigit := startsWithDigit_exponentChars (p := p) hs
  have hstart := unsigned_bytes negative h.whole_digits h.leading
    (s := Utf8.bytes p.fractionChars ++ (Utf8.bytes p.exponentChars ++ s))
  rw [fractionChars] at hstart ⊢
  cases hfraction : p.fraction with
  | nil =>
    -- without a fraction there is an exponent, which follows the integer part at once
    rw [hfraction] at hstart
    rw [hstart hdigit hwhole]
    obtain ⟨e, he⟩ := Option.isSome_iff_exists.1 (h.marked.resolve_left (· hfraction))
    have hexponent := afterDigits_exponentChars h hs negative (Nat.ofDigitChars 10 p.whole 0) 0
    rw [exponentChars, he] at hexponent ⊢
    rw [Int.zero_add] at hexponent
    exact hexponent.trans (congrArg (double negative _ · s) (Int.sub_zero _).symm)
  | cons c cs =>
    have hdigits := h.fraction_digits
    rw [hfraction] at hstart hdigits hfits
    rw [hstart rfl hwhole]
    show fractionPart negative _ 0 (Utf8.bytes (c :: cs) ++ (Utf8.bytes p.exponentChars ++ s)) = _
    rw [fractionPart_bytes negative hdigits (List.cons_ne_nil c cs) hdigit 0 hfits,
      afterDigits_exponentChars h hs, Int.zero_sub, Int.add_comm, Int.sub_eq_add_neg]

end Spelling

end JsonEmbed
