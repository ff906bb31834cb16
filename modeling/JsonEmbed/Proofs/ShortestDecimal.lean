import JsonEmbed.Number.Shortest
import JsonEmbed.Proofs.Rounding
import Mathlib.Algebra.Order.Floor.Semifield
import Mathlib.Data.Rat.Floor
import Mathlib.Tactic.Linarith
import Mathlib.Tactic.Positivity
import Mathlib.Tactic.Ring

/-!
# The size of shortest decimals

The decimal written for a magnitude is one of two neighbours on a grid of decimals, and the grid is
chosen by the exponent of the magnitude. So its digits are few, and its leading digit has the
exponent of the magnitude or the next one. The search for it never fails: the grid of seventeen
digits is so fine that a neighbour lies in the interval of the magnitude (`holds_neighbours`). So
what is written lies in this interval, and no further above the magnitude than half a spacing.

Sizes are compared as rational numbers, in which a decimal is a product (`Decimal.value`).
-/

namespace JsonEmbed

/-- The rational number that a decimal denotes. -/
def Decimal.value (d : Decimal) : ℚ :=
  d.digits * 10 ^ d.exponent

namespace Binary64

/-- The rational number that a magnitude denotes. -/
def rational (u : Nat) : ℚ :=
  u / scale

theorem cast_scale_pos : (0 : ℚ) < scale :=
  Nat.cast_pos.2 scale_pos

theorem ten_zpow_pos (e : Int) : (0 : ℚ) < 10 ^ e :=
  zpow_pos (by norm_num) e

/-- A power of ten from the two natural powers that stand for it. -/
theorem ten_pow_toNat_div (e : Int) :
    (10 : ℚ) ^ e.toNat / 10 ^ (-e).toNat = 10 ^ e := by
  rcases Int.le_total 0 e with he | he
  · obtain ⟨n, rfl⟩ := Int.eq_ofNat_of_zero_le he
    simp
  · obtain ⟨n, hn⟩ := Int.eq_ofNat_of_zero_le (Int.neg_nonneg_of_nonpos he)
    obtain rfl : e = -n := by omega
    simp

/-- A decimal counted in units, as a quotient. -/
theorem inUnits_div (d : Decimal) : (d.inUnits.1 : ℚ) / d.inUnits.2 = d.value * scale := by
  have hpow := ten_pow_toNat_div d.exponent
  show ((d.digits * 10 ^ d.exponent.toNat * scale : Nat) : ℚ) / (10 ^ (-d.exponent).toNat : Nat) = _
  rw [Decimal.value, ← hpow]
  push_cast
  ring

/-- A number has as many digits as its size says. -/
theorem length_toDigits_spec {n : Nat} (hn : 0 < n) :
    10 ^ ((Nat.toDigits 10 n).length - 1) ≤ n ∧ n < 10 ^ (Nat.toDigits 10 n).length := by
  have hpos : 0 < (Nat.toDigits 10 n).length := Nat.length_toDigits_pos
  refine ⟨?_, (Nat.length_toDigits_le_iff (by decide) hpos).1 le_rfl⟩
  rcases Nat.eq_zero_or_pos ((Nat.toDigits 10 n).length - 1) with hone | hmore
  · rw [hone]
    exact hn
  · have hlt : ¬n < 10 ^ ((Nat.toDigits 10 n).length - 1) := by
      rw [← Nat.length_toDigits_le_iff (by decide) hmore]
      omega
    exact Nat.not_lt.1 hlt

/-! ### The exponent of a magnitude -/

/-- The exponent of a magnitude is that of its leading digit. -/
theorem decimalExponent_spec {u : Nat} (hu : 0 < u) :
    (10 : ℚ) ^ decimalExponent u ≤ rational u ∧ rational u < 10 ^ (decimalExponent u + 1) := by
  have hscale : scale ≤ 10 ^ 330 := by decide +kernel
  have hpos : 0 < u * 10 ^ 330 / scale := by
    have hle : scale ≤ u * 10 ^ 330 := Nat.le_trans hscale (Nat.le_mul_of_pos_left _ hu)
    exact Nat.div_pos hle scale_pos
  obtain ⟨hlow, hhigh⟩ := length_toDigits_spec hpos
  have hlength : 0 < (Nat.toDigits 10 (u * 10 ^ 330 / scale)).length := Nat.length_toDigits_pos
  have hexponent : decimalExponent u =
      (Nat.toDigits 10 (u * 10 ^ 330 / scale)).length - 331 := by
    rw [decimalExponent, Nat.pow_eq]
  rw [hexponent, rational]
  generalize (Nat.toDigits 10 (u * 10 ^ 330 / scale)).length = l at *
  obtain ⟨l, rfl⟩ := Nat.exists_eq_succ_of_ne_zero hlength.ne'
  rw [Nat.le_div_iff_mul_le scale_pos] at hlow
  rw [Nat.div_lt_iff_lt_mul scale_pos] at hhigh
  have hlow' : (10 : ℚ) ^ l * scale ≤ u * 10 ^ 330 := by exact_mod_cast hlow
  have hhigh' : (u : ℚ) * 10 ^ 330 < 10 ^ (l + 1) * scale := by exact_mod_cast hhigh
  have hpow : ∀ k : Nat, (10 : ℚ) ^ ((k : Int) - 330) = 10 ^ k / 10 ^ 330 := by
    intro k
    rw [zpow_sub₀ (by norm_num), zpow_natCast]
    rfl
  have hfirst : (((l + 1 : Nat) : Int) - 331) = (l : Int) - 330 := by omega
  have hsecond : (((l + 1 : Nat) : Int) - 331 + 1) = ((l + 1 : Nat) : Int) - 330 := by omega
  constructor
  · rw [hfirst, hpow, div_le_div_iff₀ (by positivity) cast_scale_pos]
    exact hlow'
  · rw [hsecond, hpow, div_lt_div_iff₀ cast_scale_pos (by positivity)]
    exact hhigh'

/-! ### The grid -/

/-- What is true of a decimal with `n` digits that lies next to a magnitude. -/
structure IsNear (u n : Nat) (d : Decimal) : Prop where
  exponent_eq : d.exponent = decimalExponent u + 1 - n
  le_digits : 10 ^ (n - 1) ≤ d.digits
  digits_le : d.digits ≤ 10 ^ n

theorem IsNear.value_bounds {u n : Nat} {d : Decimal} (h : IsNear u n d) (hn : 0 < n) :
    (10 : ℚ) ^ decimalExponent u ≤ d.value ∧ d.value ≤ 10 ^ (decimalExponent u + 1) := by
  have hpow := ten_zpow_pos (decimalExponent u + 1 - n)
  have hlow : (10 : ℚ) ^ (n - 1) ≤ d.digits := by exact_mod_cast h.le_digits
  have hhigh : (d.digits : ℚ) ≤ 10 ^ n := by exact_mod_cast h.digits_le
  have hfirst : decimalExponent u = ((n - 1 : Nat) : Int) + (decimalExponent u + 1 - n) := by omega
  have hsecond : decimalExponent u + 1 = (n : Int) + (decimalExponent u + 1 - n) := by omega
  rw [Decimal.value, h.exponent_eq]
  constructor
  · calc (10 : ℚ) ^ decimalExponent u
        = 10 ^ (n - 1) * 10 ^ (decimalExponent u + 1 - n) := by
          rw [← zpow_natCast, ← zpow_add₀ (by norm_num), ← hfirst]
      _ ≤ d.digits * 10 ^ (decimalExponent u + 1 - n) := by gcongr
  · calc d.digits * (10 : ℚ) ^ (decimalExponent u + 1 - n)
        ≤ 10 ^ n * 10 ^ (decimalExponent u + 1 - n) := by gcongr
      _ = 10 ^ (decimalExponent u + 1) := by
          rw [← zpow_natCast, ← zpow_add₀ (by norm_num), ← hsecond]

/-- The lower neighbour is the integer part of the magnitude on the grid. -/
theorem neighbours_fst_digits (u n : Nat) :
    (neighbours u n).1.digits = ⌊rational u / 10 ^ (decimalExponent u + 1 - n)⌋₊ := by
  have hpow := ten_pow_toNat_div (decimalExponent u + 1 - n)
  show u * 10 ^ (-(decimalExponent u + 1 - n)).toNat /
    (10 ^ (decimalExponent u + 1 - n).toNat * scale) = _
  rw [← hpow, ← Nat.floor_div_eq_div (K := ℚ), rational]
  push_cast
  rw [div_div_div_eq, mul_comm (scale : ℚ)]

/-- The lower neighbour is not above the magnitude. -/
theorem neighbours_fst_value_le (u n : Nat) : (neighbours u n).1.value ≤ rational u := by
  have hpow := ten_zpow_pos (decimalExponent u + 1 - n)
  have hrational : 0 ≤ rational u := div_nonneg (Nat.cast_nonneg u) cast_scale_pos.le
  have hnonneg := div_nonneg hrational hpow.le
  have hfloor := Nat.floor_le hnonneg
  rw [← neighbours_fst_digits, le_div_iff₀ hpow] at hfloor
  exact hfloor

theorem isNear_neighbours {u n : Nat} (hu : 0 < u) (hn : 0 < n) :
    IsNear u n (neighbours u n).1 ∧ IsNear u n (neighbours u n).2 := by
  obtain ⟨hlow, hhigh⟩ := decimalExponent_spec hu
  have hpow := ten_zpow_pos (decimalExponent u + 1 - n)
  have hdigits := neighbours_fst_digits u n
  have hle : 10 ^ (n - 1) ≤ (neighbours u n).1.digits := by
    rw [hdigits]
    refine Nat.le_floor ?_
    rw [le_div_iff₀ hpow]
    push_cast
    rw [← zpow_natCast, ← zpow_add₀ (by norm_num)]
    have hexponent : ((n - 1 : Nat) : Int) + (decimalExponent u + 1 - n) = decimalExponent u := by
      omega
    rwa [hexponent]
  have hlt : (neighbours u n).1.digits < 10 ^ n := by
    rw [hdigits, Nat.floor_lt' (by positivity), div_lt_iff₀ hpow]
    push_cast
    rw [← zpow_natCast, ← zpow_add₀ (by norm_num)]
    have hexponent : (n : Int) + (decimalExponent u + 1 - n) = decimalExponent u + 1 := by omega
    rwa [hexponent]
  exact ⟨⟨rfl, hle, hlt.le⟩, ⟨rfl, Nat.le_succ_of_le hle, hlt⟩⟩

/-- The upper neighbour is above the magnitude, by one step of the grid above the lower one. -/
theorem neighbours_snd_value (u n : Nat) :
    (neighbours u n).2.value = (neighbours u n).1.value + 10 ^ (decimalExponent u + 1 - n) ∧
      rational u < (neighbours u n).2.value := by
  have hpow := ten_zpow_pos (decimalExponent u + 1 - n)
  have hfloor := Nat.lt_floor_add_one (rational u / 10 ^ (decimalExponent u + 1 - n))
  rw [← neighbours_fst_digits, div_lt_iff₀ hpow] at hfloor
  have hvalue : (neighbours u n).2.value =
      ((neighbours u n).1.digits + 1) * 10 ^ (decimalExponent u + 1 - n) := by
    show (((neighbours u n).1.digits + 1 : Nat) : ℚ) * _ = _
    push_cast
    rfl
  refine ⟨?_, by rwa [hvalue]⟩
  rw [hvalue, add_one_mul]
  rfl

/-! ### The interval of a magnitude -/

/-- The interval of a magnitude begins half a spacing below it, or a quarter where the spacing
halves. -/
theorem lowerEnd_cases {u : Nat} (hu : 0 < u) :
    spacing u ≠ 1 ∧ u = 2 ^ 52 * spacing u ∧ lowerEnd u + spacing u = 4 * u ∨
      ¬(spacing u ≠ 1 ∧ u = 2 ^ 52 * spacing u) ∧ lowerEnd u + 2 * spacing u = 4 * u := by
  have hle := spacing_le hu
  unfold lowerEnd
  dsimp only
  split
  · next h => exact Or.inl ⟨h.1, h.2, by omega⟩
  · next h => exact Or.inr ⟨h, by omega⟩

/-- What a decimal needs to round to a magnitude; the ends of the interval count only for an even
number of spacings. -/
theorem le_of_holds {u : Nat} {d : Decimal} (h : holds u d = true) :
    lowerEnd u * d.inUnits.2 ≤ 4 * d.inUnits.1 ∧ 4 * d.inUnits.1 ≤ upperEnd u * d.inUnits.2 ∧
      (u / spacing u % 2 = 0 ∨
        lowerEnd u * d.inUnits.2 ≠ 4 * d.inUnits.1 ∧
          4 * d.inUnits.1 ≠ upperEnd u * d.inUnits.2) := by
  unfold holds at h
  dsimp only at h
  split at h
  · next heven =>
    obtain ⟨hlow, hhigh⟩ := Bool.and_eq_true_iff.1 h
    exact ⟨of_decide_eq_true hlow, of_decide_eq_true hhigh, Or.inl heven⟩
  · obtain ⟨hlow, hhigh⟩ := Bool.and_eq_true_iff.1 h
    have hlow := of_decide_eq_true hlow
    have hhigh := of_decide_eq_true hhigh
    exact ⟨hlow.le, hhigh.le, Or.inr ⟨hlow.ne, hhigh.ne⟩⟩

theorem inUnits_snd_pos (d : Decimal) : 0 < d.inUnits.2 :=
  Nat.pow_pos (by decide)

/-- A decimal inside the interval rounds to the magnitude. -/
theorem holds_of_lt {u : Nat} {d : Decimal} {units : ℚ} (hunits : d.value * scale = units)
    (hlow : lowerEnd u < 4 * units) (hhigh : 4 * units < upperEnd u) : holds u d = true := by
  have hden : (0 : ℚ) < (d.inUnits.2 : ℚ) := by exact_mod_cast inUnits_snd_pos d
  rw [← hunits, ← inUnits_div, ← mul_div_assoc, lt_div_iff₀ hden] at hlow
  rw [← hunits, ← inUnits_div, ← mul_div_assoc, div_lt_iff₀ hden] at hhigh
  have hlow' : lowerEnd u * d.inUnits.2 < 4 * d.inUnits.1 := by exact_mod_cast hlow
  have hhigh' : 4 * d.inUnits.1 < upperEnd u * d.inUnits.2 := by exact_mod_cast hhigh
  unfold holds
  dsimp only
  split
  · rw [decide_eq_true hlow'.le, decide_eq_true hhigh'.le]
    rfl
  · rw [decide_eq_true hlow', decide_eq_true hhigh']
    rfl

/-- How far above a magnitude a decimal may lie that is written for it. -/
def IsBelowEnd (u : Nat) (d : Decimal) : Prop :=
  4 * (d.value * scale) ≤ upperEnd u

theorem isBelowEnd_of_holds {u : Nat} {d : Decimal} (h : holds u d = true) : IsBelowEnd u d := by
  have hden : (0 : ℚ) < (d.inUnits.2 : ℚ) := by exact_mod_cast inUnits_snd_pos d
  have hle : 4 * (d.inUnits.1 : ℚ) ≤ upperEnd u * d.inUnits.2 := by
    exact_mod_cast (le_of_holds h).2.1
  rw [IsBelowEnd, ← inUnits_div, ← mul_div_assoc, div_le_iff₀ hden]
  exact hle

/-- With seventeen digits, the grid is so fine that a neighbour rounds to the magnitude: its steps
are shorter than a spacing, and shorter than three quarters of one where the spacing halves. -/
theorem holds_neighbours {u : Nat} (hu : 0 < u) :
    holds u (neighbours u 17).1 = true ∨ holds u (neighbours u 17).2 = true := by
  have hscale := cast_scale_pos
  have hbelow := neighbours_fst_value_le u 17
  obtain ⟨hstep, habove⟩ := neighbours_snd_value u 17
  have hleading := (decimalExponent_spec hu).1
  have hexponent : decimalExponent u = (16 : Nat) + (decimalExponent u + 1 - (17 : Nat)) := by omega
  have hgrid : (10 : ℚ) ^ decimalExponent u =
      10 ^ 16 * 10 ^ (decimalExponent u + 1 - (17 : Nat)) := by
    rw [← zpow_natCast, ← zpow_add₀ (by norm_num), ← hexponent]
  rw [rational, le_div_iff₀ hscale] at hbelow
  rw [rational, div_lt_iff₀ hscale] at habove
  rw [rational, le_div_iff₀ hscale, hgrid, mul_assoc] at hleading
  have hhigh : (neighbours u 17).2.value * scale =
      (neighbours u 17).1.value * scale + 10 ^ (decimalExponent u + 1 - (17 : Nat)) * scale := by
    rw [hstep, add_mul]
  generalize (10 : ℚ) ^ (decimalExponent u + 1 - (17 : Nat)) * scale = step at *
  generalize hlowUnits : (neighbours u 17).1.value * scale = low at *
  generalize hhighUnits : (neighbours u 17).2.value * scale = high at *
  have hgap : (0 : ℚ) < spacing u := by exact_mod_cast spacing_pos u
  have hmany : (u : ℚ) < 2 ^ 53 * spacing u := by
    exact_mod_cast (Nat.div_lt_iff_lt_mul (spacing_pos u)).1 (div_spacing_lt u)
  have hupper : (upperEnd u : ℚ) = 4 * u + 2 * spacing u := by
    exact_mod_cast (rfl : upperEnd u = 4 * u + 2 * spacing u)
  by_cases hlow : (lowerEnd u : ℚ) < 4 * low
  · exact Or.inl (holds_of_lt hlowUnits hlow (by linarith))
  -- the lower neighbour lies below the interval, and one step up from there does not leave it
  rw [not_lt] at hlow
  rcases lowerEnd_cases hu with ⟨-, hfirst, hend⟩ | ⟨-, hend⟩
  · have hfirst' : (u : ℚ) = 2 ^ 52 * spacing u := by exact_mod_cast hfirst
    have hend' : (lowerEnd u : ℚ) + spacing u = 4 * u := by exact_mod_cast hend
    exact Or.inr (holds_of_lt hhighUnits (by linarith) (by linarith))
  · have hend' : (lowerEnd u : ℚ) + 2 * spacing u = 4 * u := by exact_mod_cast hend
    exact Or.inr (holds_of_lt hhighUnits (by linarith) (by linarith))

/-! ### The search -/

theorem candidate?_cases {tie : Tie} {u n : Nat} {d : Decimal} (h : candidate? tie u n = some d) :
    (d = (neighbours u n).1 ∨ d = (neighbours u n).2) ∧ holds u d = true := by
  unfold candidate? at h
  dsimp only at h
  split at h
  · next hlow _ =>
    obtain rfl := Option.some.inj h
    exact ⟨Or.inl rfl, hlow⟩
  · next hhigh =>
    obtain rfl := Option.some.inj h
    exact ⟨Or.inr rfl, hhigh⟩
  · exact absurd h (by simp)
  · next hlow hhigh =>
    split at h
    · obtain rfl := Option.some.inj h
      exact ⟨Or.inl rfl, hlow⟩
    split at h
    · obtain rfl := Option.some.inj h
      exact ⟨Or.inr rfl, hhigh⟩
    split at h
    · obtain rfl := Option.some.inj h
      exact ⟨Or.inl rfl, hlow⟩
    · obtain rfl := Option.some.inj h
      exact ⟨Or.inr rfl, hhigh⟩

theorem isSome_candidate? (tie : Tie) {u : Nat} (hu : 0 < u) :
    (candidate? tie u 17).isSome = true := by
  unfold candidate?
  dsimp only
  split
  · rfl
  · rfl
  · next hlow hhigh =>
    rcases holds_neighbours hu with hholds | hholds
    · exact absurd (hlow.symm.trans hholds) Bool.false_ne_true
    · exact absurd (hhigh.symm.trans hholds) Bool.false_ne_true
  · split
    · rfl
    split
    · rfl
    split <;> rfl

/-- The search ends with a decimal that rounds to the magnitude, on a grid of at most seventeen
digits. -/
theorem search_spec (tie : Tie) {u : Nat} (hu : 0 < u) (fuel : Nat) {n : Nat} (hn : 0 < n)
    (hle : n ≤ 17) (hfuel : 17 < n + fuel) :
    (∃ m, 0 < m ∧ m ≤ 17 ∧ IsNear u m (search tie u fuel n)) ∧
      holds u (search tie u fuel n) = true := by
  induction fuel generalizing n with
  | zero => exact absurd hfuel (by omega)
  | succ fuel ih =>
    rw [search]
    cases hcandidate : candidate? tie u n with
    | none =>
      have hne : n ≠ 17 := by
        rintro rfl
        have hsome := isSome_candidate? tie hu
        rw [hcandidate] at hsome
        exact Bool.false_ne_true hsome
      exact ih (Nat.succ_pos n) (by omega) (by omega)
    | some d =>
      obtain ⟨hd, hholds⟩ := candidate?_cases hcandidate
      obtain ⟨hfst, hsnd⟩ := isNear_neighbours hu hn
      refine ⟨⟨n, hn, hle, ?_⟩, hholds⟩
      rcases hd with rfl | rfl
      · exact hfst
      · exact hsnd

/-! ### Trailing zeros -/

theorem dropZeros_spec (fuel : Nat) {d : Decimal} (hd : 0 < d.digits) :
    (d.dropZeros fuel).value = d.value ∧ 0 < (d.dropZeros fuel).digits ∧
      (d.dropZeros fuel).digits ≤ d.digits := by
  induction fuel generalizing d with
  | zero => exact ⟨rfl, hd, le_rfl⟩
  | succ fuel ih =>
    rw [Decimal.dropZeros]
    split
    · next hzero =>
      have hpos : 0 < d.digits / 10 := by omega
      obtain ⟨hvalue, hdigits, hle⟩ := ih (d := ⟨d.digits / 10, d.exponent + 1⟩) hpos
      refine ⟨hvalue.trans ?_, hdigits, hle.trans (Nat.div_le_self _ _)⟩
      have hten : ((d.digits / 10 : Nat) : ℚ) * 10 = d.digits := by
        have hnat : d.digits / 10 * 10 = d.digits := by omega
        exact_mod_cast hnat
      rw [Decimal.value, Decimal.value, zpow_add_one₀ (by norm_num), ← hten]
      ring
    · exact ⟨rfl, hd, le_rfl⟩

/-! ### Shortest decimals -/

/-- The exponent of the leading digit of a decimal. -/
def leading (d : Decimal) : Int :=
  d.exponent + (Nat.toDigits 10 d.digits).length - 1

theorem leading_spec {d : Decimal} (hd : 0 < d.digits) :
    (10 : ℚ) ^ leading d ≤ d.value ∧ d.value < 10 ^ (leading d + 1) := by
  obtain ⟨hlow, hhigh⟩ := length_toDigits_spec hd
  have hlength : 0 < (Nat.toDigits 10 d.digits).length := Nat.length_toDigits_pos
  rw [leading, Decimal.value]
  generalize (Nat.toDigits 10 d.digits).length = l at *
  obtain ⟨l, rfl⟩ := Nat.exists_eq_succ_of_ne_zero hlength.ne'
  have hpow := ten_zpow_pos d.exponent
  have hlow' : (10 : ℚ) ^ l ≤ d.digits := by exact_mod_cast hlow
  have hhigh' : (d.digits : ℚ) < 10 ^ (l + 1) := by exact_mod_cast hhigh
  have hfirst : d.exponent + ((l + 1 : Nat) : Int) - 1 = (l : Int) + d.exponent := by omega
  have hsecond : d.exponent + ((l + 1 : Nat) : Int) - 1 + 1 =
      ((l + 1 : Nat) : Int) + d.exponent := by
    omega
  rw [hsecond, hfirst, zpow_add₀ (by norm_num), zpow_add₀ (by norm_num), zpow_natCast, zpow_natCast]
  exact ⟨by gcongr, by gcongr⟩

/-- **The size of a shortest decimal.** It has at most seventeen digits or is a power of ten, its
leading digit stands where that of the magnitude does or one place before, and it is not above the
interval of the magnitude. -/
theorem shortest_spec (tie : Tie) {u : Nat} (hu : 0 < u) :
    0 < (shortest tie u).digits ∧ (shortest tie u).digits ≤ 10 ^ 17 ∧
      decimalExponent u ≤ leading (shortest tie u) ∧
      leading (shortest tie u) ≤ decimalExponent u + 1 ∧ IsBelowEnd u (shortest tie u) := by
  obtain ⟨⟨m, hm, hle, hnear⟩, hholds⟩ := search_spec tie hu 17 Nat.one_pos (by decide) (by decide)
  have hpos : 0 < (search tie u 17 1).digits :=
    Nat.lt_of_lt_of_le (Nat.pow_pos (by decide)) hnear.le_digits
  obtain ⟨hvalue, hdigits, hdrop⟩ := dropZeros_spec 17 hpos
  rw [shortest, if_neg hu.ne']
  obtain ⟨hlow, hhigh⟩ := leading_spec hdigits
  rw [hvalue] at hlow hhigh
  obtain ⟨hmin, hmax⟩ := hnear.value_bounds hm
  refine ⟨hdigits, ?_, ?_, ?_, ?_⟩
  · have hpow : 10 ^ m ≤ 10 ^ 17 := Nat.pow_le_pow_right (by decide) hle
    exact hdrop.trans (hnear.digits_le.trans hpow)
  · have hlt := (zpow_lt_zpow_iff_right₀ (by norm_num)).1 (hmin.trans_lt hhigh)
    omega
  · exact (zpow_le_zpow_iff_right₀ (by norm_num)).1 (hlow.trans hmax)
  · rw [IsBelowEnd, hvalue]
    exact isBelowEnd_of_holds hholds

end Binary64

end JsonEmbed
