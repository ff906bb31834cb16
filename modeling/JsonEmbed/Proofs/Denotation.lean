import JsonEmbed.Tag
import JsonEmbed.Proofs.ExactReading
import JsonEmbed.Proofs.Nearest

/-!
# What the text of a number denotes

The C text of a number is an integer text, digits behind a minus sign or none, or it has a point or
an exponent. An integer text denotes its value exactly. Any other text denotes the binary64 number
that is nearest to its decimal, which is the one that it is read as
(`Extended.ofDecimal_eq_finite_iff`). This is the number that the text was written for: its decimal
is the shortest one, and this rounds back (`Extended.ofText?_text`).

So the text of a number denotes the number, with one exception. The range in which an integral
double is written as an integer of 64 bits includes `2 ^ 63`, which is no such integer, and the text
of this double is that of its predecessor (`Number.denotes_cText_iff`).
-/

namespace JsonEmbed

/-! ### Integer texts -/

/-- The value of a text of digits behind a minus sign or none. -/
def plainInteger? (text : String) : Option Int :=
  match text.toList with
  | '-' :: cs => (Extended.natural? cs).map fun n : Nat ↦ -(n : Int)
  | cs => (Extended.natural? cs).map fun n : Nat ↦ (n : Int)

section PlainIntegers

variable {text : String} {cs : List Char}

theorem plainInteger?_of_minus (h : text.toList = '-' :: cs) :
    plainInteger? text = (Extended.natural? cs).map fun n : Nat ↦ -(n : Int) := by
  rw [plainInteger?, h]
  rfl

theorem plainInteger?_of_beginsWithDigit (h : BeginsWithDigit text.toList) :
    plainInteger? text = (Extended.natural? text.toList).map fun n : Nat ↦ (n : Int) := by
  obtain ⟨c, rest, htext, hc⟩ := h
  rw [plainInteger?, htext]
  split
  · next hminus => exact absurd (List.cons.inj hminus).1 (digit_ne hc rfl)
  · rfl

end PlainIntegers

theorem plainInteger?_decimalText (i : Int) : plainInteger? (decimalText i) = some i := by
  rw [decimalText]
  split
  · next hneg =>
    have htext : ("-" ++ Nat.repr i.natAbs).toList = '-' :: Nat.toDigits 10 i.natAbs := by
      rw [String.toList_append, Nat.toList_repr]
      rfl
    have hvalue : -(i.natAbs : Int) = i := by omega
    rw [plainInteger?_of_minus htext, Extended.natural?_toDigits, Option.map_some, hvalue]
  · next hnonneg =>
    have hvalue : (i.natAbs : Int) = i := by omega
    have hdigits : BeginsWithDigit (Nat.repr i.natAbs).toList := by
      rw [Nat.toList_repr]
      exact beginsWithDigit_toDigits _
    rw [plainInteger?_of_beginsWithDigit hdigits, Nat.toList_repr, Extended.natural?_toDigits,
      Option.map_some, hvalue]

/-! ### Texts of fractions -/

namespace FloatFormat

/-- The text of a fraction is no integer text. -/
theorem plainInteger?_text {x : Binary64} (h : x.units < Binary64.limit) :
    plainInteger? (document.text x) = none := by
  have hfraction := Binary64.isFraction_spelling h
  obtain ⟨c, hc, hmark⟩ := Spelling.exists_mark hfraction
  have hnatural := Extended.natural?_eq_none hc hmark
  have htext := toList_text x
  split at htext
  · rw [plainInteger?_of_minus htext, hnatural, Option.map_none]
  · have hdigit : BeginsWithDigit (document.text x).toList := by
      rw [htext]
      exact Spelling.beginsWithDigit_chars hfraction
    rw [plainInteger?_of_beginsWithDigit hdigit, htext, hnatural, Option.map_none]

end FloatFormat

/-- No magnitude is nearer to what is written for one. -/
theorem Binary64.isNearest_spelling {u : Nat} (h : spacing u ∣ u) :
    IsNearest ((spelling u).decimal.value * scale) u := by
  have hnearest := isNearest_roundUnits (spelling u).decimal.inUnits.1
    (inUnits_snd_pos (spelling u).decimal)
  rwa [inUnits_div, roundUnits_spelling h] at hnearest

namespace Extended

/-- What is written for an exponent is read as this exponent. -/
theorem integer?_exponent (e : Int) :
    integer? ((if e < 0 then '-' else '+') :: Nat.toDigits 10 e.natAbs) = some e := by
  split
  · have hvalue : -(e.natAbs : Int) = e := by omega
    rw [integer?, natural?_toDigits]
    exact congrArg some hvalue
  · have hvalue : (e.natAbs : Int) = e := by omega
    rw [integer?, natural?_toDigits]
    exact congrArg some hvalue

theorem isExponentMark_of_isDigit {c : Char} (h : c.isDigit = true) : isExponentMark c = false := by
  have hsmall : c ≠ 'e' := digit_ne h rfl
  have hcapital : c ≠ 'E' := digit_ne h rfl
  simp [isExponentMark, hsmall, hcapital]

section Reading

variable {p : Spelling} (h : p.IsFraction)

include h

/-- Before the exponent there are digits and the point. -/
theorem isExponentMark_mantissa : ∀ c ∈ p.whole ++ p.fractionChars, (!isExponentMark c) = true := by
  intro c hc
  rw [Bool.not_eq_true']
  rcases List.mem_append.1 hc with hwhole | hfraction
  · exact isExponentMark_of_isDigit (h.whole_digits c hwhole)
  · rw [Spelling.fractionChars] at hfraction
    split at hfraction
    · exact absurd hfraction List.not_mem_nil
    · next htext =>
      rcases List.mem_cons.1 hfraction with rfl | hdigit
      · rfl
      · exact isExponentMark_of_isDigit (h.fraction_digits c (htext ▸ hdigit))

/-- The letter of the exponent is where a spelling is split. -/
theorem split_at_exponent :
    p.chars.takeWhile (!isExponentMark ·) = p.whole ++ p.fractionChars ∧
      p.chars.dropWhile (!isExponentMark ·) = p.exponentChars := by
  have hmantissa := isExponentMark_mantissa h
  have hexponent : p.exponentChars.takeWhile (!isExponentMark ·) = [] ∧
      p.exponentChars.dropWhile (!isExponentMark ·) = p.exponentChars := by
    rw [Spelling.exponentChars]
    split <;> exact ⟨rfl, rfl⟩
  rw [Spelling.chars, ← List.append_assoc, List.takeWhile_append_of_pos hmantissa,
    List.dropWhile_append_of_pos hmantissa, hexponent.1, hexponent.2, List.append_nil]
  exact ⟨rfl, rfl⟩

/-- The point is where the digits of a spelling are split. -/
theorem split_at_point :
    (p.whole ++ p.fractionChars).takeWhile (· != '.') = p.whole ∧
      ((p.whole ++ p.fractionChars).dropWhile (· != '.')).drop 1 = p.fraction := by
  have hwhole : ∀ c ∈ p.whole, (c != '.') = true :=
    fun c hc ↦ bne_iff_ne.2 (digit_ne (h.whole_digits c hc) rfl)
  have hfraction : p.fractionChars.takeWhile (· != '.') = [] ∧
      (p.fractionChars.dropWhile (· != '.')).drop 1 = p.fraction := by
    rw [Spelling.fractionChars]
    split
    · next hnil => exact ⟨rfl, hnil.symm⟩
    · next hcons => exact ⟨rfl, hcons.symm⟩
  rw [List.takeWhile_append_of_pos hwhole, List.dropWhile_append_of_pos hwhole, hfraction.1,
    hfraction.2, List.append_nil]
  exact ⟨rfl, rfl⟩

/-- **A spelling is read as its decimal.** -/
theorem ofText?_chars {text : String} {negative : Bool}
    (htext : text.toList = if negative then '-' :: p.chars else p.chars) :
    ofText? text = some (ofDecimal negative p.decimal.digits p.decimal.exponent) := by
  obtain ⟨hmantissa, hexponent⟩ := split_at_exponent h
  obtain ⟨hwhole, hfraction⟩ := split_at_point h
  have hdigits : natural? (p.whole ++ p.fraction) = some p.significand :=
    natural?_eq_some (List.append_ne_nil_of_left_ne_nil h.leading.ne_nil _)
      (h.whole_digits.append h.fraction_digits)
  unfold ofText?
  split
  next sign cs hsplit =>
  obtain ⟨rfl, rfl⟩ : sign = negative ∧ cs = p.chars := by
    rw [htext] at hsplit
    cases negative with
    | true =>
      obtain ⟨hsign, hcs⟩ := Prod.mk.inj hsplit
      exact ⟨hsign.symm, hcs.symm⟩
    | false =>
      obtain ⟨c, rest, hchars, hc⟩ := Spelling.beginsWithDigit_chars h
      rw [if_neg Bool.false_ne_true, hchars] at hsplit
      split at hsplit
      · next hminus => exact absurd (List.cons.inj hminus).1 (digit_ne hc rfl)
      · obtain ⟨hsign, hcs⟩ := Prod.mk.inj hsplit
        exact ⟨hsign.symm, hcs.symm.trans hchars.symm⟩
  dsimp only
  rw [hmantissa, hexponent, hwhole, hfraction, hdigits, Spelling.decimal, Spelling.shift,
    Spelling.exponentChars]
  cases p.exponent with
  | none => rfl
  | some e =>
    dsimp only
    rw [integer?_exponent]
    rfl

end Reading

/-- **The text of a fraction is read as the fraction**, if it is read with correct rounding. -/
theorem ofText?_text {x : Binary64} (h : Binary64.Representable x.units) :
    ofText? (FloatFormat.document.text x) = some (finite x) := by
  rw [ofText?_chars (Binary64.isFraction_spelling h.1) (FloatFormat.toList_text x)]
  congr 1
  rw [ofDecimal_eq_finite_iff]
  exact ⟨rfl, h.1, Binary64.isNearest_spelling h.2⟩

end Extended

/-! ### The values of numbers -/

namespace Binary64

/-- The rational number that a binary64 number is. -/
def value (x : Binary64) : ℚ :=
  x.toUnits / scale

/-- An integral number is its integer part, counted in units. -/
theorem toUnits_eq {x : Binary64} (h : x.IsIntegral) : x.toUnits = x.truncate * scale := by
  have hunits : ((x.units / scale : Nat) : Int) * scale = x.units := by
    rw [← Nat.cast_mul, Nat.div_mul_cancel h]
  rw [toUnits, truncate]
  split
  · rw [neg_mul, hunits]
  · exact hunits.symm

theorem value_eq_truncate {x : Binary64} (h : x.IsIntegral) : x.value = x.truncate := by
  rw [value, toUnits_eq h, Int.cast_mul, Int.cast_natCast,
    mul_div_cancel_right₀ _ cast_scale_pos.ne']

theorem truncate_mul_scale (n : Nat) : truncate ⟨false, n * scale⟩ = n := by
  rw [truncate, if_neg Bool.false_ne_true, Nat.mul_div_cancel n scale_pos]

/-- A positive integer is the integer part of one integral number. -/
theorem truncate_eq_iff {x : Binary64} (h : x.IsIntegral) {n : Nat} (hn : 0 < n) :
    x.truncate = n ↔ x = ⟨false, n * scale⟩ := by
  refine ⟨fun htruncate ↦ ?_, fun heq ↦ heq ▸ truncate_mul_scale n⟩
  have hpos : 0 < n * scale := Nat.mul_pos hn scale_pos
  have hunits := toUnits_eq h
  rw [htruncate, ← Nat.cast_mul] at hunits
  obtain ⟨negative, u⟩ := x
  generalize n * scale = m at *
  cases negative with
  | true =>
    have hnegated : -(u : Int) = m := hunits
    omega
  | false =>
    have hkept : (u : Int) = m := hunits
    rw [Int.ofNat_inj.1 hkept]

/-- The double that follows the integers of 64 bits passes for one of them. -/
theorem two_pow_spec : (ofInt (2 ^ 63)).IsIntegral ∧
    -(Nat.pow 2 63 : Int) ≤ (ofInt (2 ^ 63)).truncate ∧
      (ofInt (2 ^ 63)).truncate ≤ Nat.pow 2 63 := by
  decide +kernel

/-- It is the only double with their bound as its integer part. -/
theorem ne_two_pow_iff {x : Binary64} (h : x.IsIntegral) :
    x ≠ ofInt (2 ^ 63) ↔ x.truncate ≠ 2 ^ 63 := by
  have hbound : ofInt (2 ^ 63) = ⟨false, 2 ^ 63 * scale⟩ := by decide +kernel
  have htruncate := truncate_eq_iff h (n := 2 ^ 63) (by decide)
  rw [← hbound] at htruncate
  exact htruncate.not.symm

end Binary64

namespace Number

/-- The rational number that a number of a document is. -/
def value : Number → ℚ
  | integer i => i
  | double x => x.value

/-- The text denotes the number: an integer text by its value, and any other text, which is a
spelling behind a minus sign or none, as the double that is nearest to its decimal, ties to even.
This is the double that it is read as. -/
structure Denotes (text : String) (n : Number) : Prop where
  integer : ∀ i, plainInteger? text = some i → n.value = i
  fraction : plainInteger? text = none → ∃ (x : Binary64) (p : Spelling),
    n = double x ∧ p.IsFraction ∧ (text.toList = if x.negative then '-' :: p.chars else p.chars) ∧
      Binary64.IsNearest (p.decimal.value * Binary64.scale) x.units ∧
      Extended.ofText? text = some (.finite x)

theorem denotes_decimalText_iff {i : Int} {n : Number} :
    Denotes (decimalText i) n ↔ n.value = i := by
  have hplain := plainInteger?_decimalText i
  refine ⟨fun h ↦ h.integer i hplain, fun h ↦ ⟨fun j hj ↦ ?_, fun hnone ↦ ?_⟩⟩
  · obtain rfl := Option.some.inj (hplain.symm.trans hj)
    exact h
  · exact absurd (hplain.symm.trans hnone) (by simp)

theorem denotes_text {x : Binary64} (h : Binary64.Representable x.units) :
    Denotes (FloatFormat.document.text x) (double x) := by
  have hnone := FloatFormat.plainInteger?_text h.1
  refine ⟨fun i hi ↦ absurd (hnone.symm.trans hi) (by simp), fun _ ↦ ?_⟩
  exact ⟨x, Binary64.spelling x.units, rfl, Binary64.isFraction_spelling h.1,
    FloatFormat.toList_text x, Binary64.isNearest_spelling h.2, Extended.ofText?_text h⟩

/-- The integer that is written for a double is its value, unless this was out of range. -/
theorem value_eq_min_iff {x : Binary64} (h : x.IsIntegral) (hle : x.truncate ≤ Nat.pow 2 63) :
    x.value = (min x.truncate (Nat.pow 2 63 - 1) : Int) ↔ x ≠ .ofInt (2 ^ 63) := by
  have hpow : Nat.pow 2 63 = 2 ^ 63 := rfl
  rw [Binary64.value_eq_truncate h, Int.cast_inj, Binary64.ne_two_pow_iff h]
  rw [hpow] at hle ⊢
  omega

/-- **The text of a number denotes the number**, except for that of the double `2 ^ 63`. -/
theorem denotes_cText_iff {n : Number} (h : n.Valid) :
    Denotes n.cText n ↔ n ≠ double (.ofInt (2 ^ 63)) := by
  cases n with
  | integer i => exact iff_of_true (denotes_decimalText_iff.2 rfl) (by simp)
  | double x =>
    rw [Ne, double.injEq, cText]
    split
    · next hrange => exact denotes_decimalText_iff.trans (value_eq_min_iff hrange.1 hrange.2.2)
    · next hrange =>
      refine iff_of_true (denotes_text (valid_double.1 h)) fun heq ↦ hrange ?_
      rw [heq]
      exact Binary64.two_pow_spec

/-- The least double that is an integer of 64 bits is written as this integer. -/
theorem denotes_cText_least :
    (double (.ofInt (-2 ^ 63))).Valid ∧
      (double (.ofInt (-2 ^ 63))).cText = "-9223372036854775808" ∧
      Denotes (double (.ofInt (-2 ^ 63))).cText (double (.ofInt (-2 ^ 63))) := by
  have hvalid : (double (.ofInt (-2 ^ 63))).Valid := valid_double.2 (by decide +kernel)
  exact ⟨hvalid, by decide +kernel, (denotes_cText_iff hvalid).2 (by decide +kernel)⟩

/-- The double that follows the integers of 64 bits is read from a document, and the greatest of
these integers is written for it. -/
theorem exists_saturated :
    Numeral.unsigned false (Utf8.encode "9223372036854775808.0") =
        .ok (double (.ofInt (2 ^ 63)), []) ∧
      (double (.ofInt (2 ^ 63))).Valid ∧
      (double (.ofInt (2 ^ 63))).cText = "9223372036854775807" ∧
      ¬Denotes (double (.ofInt (2 ^ 63))).cText (double (.ofInt (2 ^ 63))) := by
  have hrange := Binary64.two_pow_spec
  refine ⟨by decide +kernel, valid_double.2 (by decide +kernel), by decide +kernel, fun h ↦ ?_⟩
  rw [cText, if_pos hrange, denotes_decimalText_iff] at h
  exact (value_eq_min_iff hrange.1 hrange.2.2).1 h rfl

end Number

end JsonEmbed
