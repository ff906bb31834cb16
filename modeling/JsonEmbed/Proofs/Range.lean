import JsonEmbed.Json.Numeral
import JsonEmbed.Proofs.Rounding
import Mathlib.Tactic.Linarith
import Mathlib.Tactic.Ring

/-!
# Numerals within range

Reading rounds a significand and a power of ten, and then rounds their product or quotient. When is
the result finite? A quotient always is, as no significand is large. A product is if the decimal
lies far enough below the limit of the format for three roundings: each goes up by no more than one
part in `2 ^ 53`, and two and a half spacings of the largest numbers are enough for all of them
(`Numeral.isSome_scaled?_of_mul_le`).
-/

namespace JsonEmbed

namespace Binary64

/-- The spacing of the largest numbers. -/
def topSpacing : Nat := Nat.pow 2 2045

theorem limit_eq : limit = 2 ^ 53 * topSpacing := by
  decide +kernel

theorem topSpacing_pos : 0 < topSpacing := by
  decide +kernel

theorem two_pow_le_scale : 2 ^ 52 ≤ scale := by
  decide +kernel

theorem spacing_le_topSpacing {u : Nat} (h : u < limit) : spacing u ≤ topSpacing := by
  rcases Nat.eq_zero_or_pos u with rfl | hu
  · exact topSpacing_pos
  · have hlog : u.log2 < 2098 := (Nat.log2_lt hu.ne').2 h
    exact Nat.pow_le_pow_right (by decide) (by omega)

/-- What lies below the limit by more than half a spacing is rounded to a number below the limit. -/
theorem roundUnits_lt_limit {num den : Nat} (hden : 0 < den)
    (h : 2 * num + den * topSpacing < den * (2 * limit)) : roundUnits num den < limit := by
  have hquotient : num / den < limit := by
    rw [Nat.div_lt_iff_lt_mul hden]
    rw [Nat.mul_left_comm] at h
    have hcomm := Nat.mul_comm limit den
    omega
  obtain ⟨hround, -⟩ := roundUnits_spec num hden
  have hspacing := Nat.mul_le_mul_left den (spacing_le_topSpacing hquotient)
  have hlt : den * (2 * roundUnits num den) < den * (2 * limit) := by
    calc den * (2 * roundUnits num den) = 2 * (roundUnits num den * den) := by ring
      _ ≤ 2 * num + den * spacing (num / den) := hround
      _ ≤ 2 * num + den * topSpacing := Nat.add_le_add_left hspacing _
      _ < den * (2 * limit) := h
  have := Nat.lt_of_mul_lt_mul_left hlt
  omega

theorem isSome_ofUnits? {negative : Bool} {num den : Nat} (h : roundUnits num den < limit) :
    (ofUnits? negative num den).isSome = true := by
  rw [ofUnits?]
  simp only [if_pos h, Option.isSome_some]

theorem units_of_ofUnits? {negative : Bool} {num den : Nat} {x : Binary64}
    (h : ofUnits? negative num den = some x) : x.units = roundUnits num den := by
  rw [ofUnits?] at h
  split at h
  · rw [← Option.some.inj h]
  · exact absurd h (by simp)

theorem roundUnits_zero : roundUnits 0 1 = 0 := by
  decide

/-- A natural number is rounded by at most one part in `2 ^ 53`. -/
theorem roundUnits_mul_scale (n : Nat) :
    2 ^ 53 * roundUnits (n * scale) 1 ≤ (2 ^ 53 + 1) * (n * scale) ∧
      2 ^ 53 * (n * scale) ≤ 2 ^ 53 * roundUnits (n * scale) 1 + n * scale := by
  rcases Nat.eq_zero_or_pos n with rfl | hn
  · rw [Nat.zero_mul, roundUnits_zero]
    exact ⟨le_rfl, le_rfl⟩
  obtain ⟨habove, hbelow⟩ := roundUnits_spec (n * scale) Nat.one_pos
  have hlarge : 2 ^ 52 ≤ n * scale := two_pow_le_scale.trans (Nat.le_mul_of_pos_left scale hn)
  have hspacing := two_pow_mul_spacing_le hlarge
  rw [Nat.div_one, Nat.one_mul, Nat.mul_one] at habove hbelow
  constructor <;> omega

/-- A natural number is rounded up by at most one part in `2 ^ 53`. -/
theorem two_pow_mul_ofNat_le (n : Nat) :
    2 ^ 53 * (ofNat n).units ≤ (2 ^ 53 + 1) * (n * scale) := by
  rw [ofNat]
  cases hunits : ofUnits? false (n * scale) 1 with
  | none => exact Nat.zero_le _
  | some x =>
    rw [Option.getD_some, units_of_ofUnits? hunits]
    exact (roundUnits_mul_scale n).1

/-- The powers of ten that arithmetic uses are finite, and each is above one by far. -/
theorem tenPow_spec {n : Nat} (hpos : 0 < n) (hn : n ≤ 308) : 4 * scale ≤ (tenPow n).units := by
  have hmax : 2 * (10 ^ 308 * scale) + 1 * topSpacing < 1 * (2 * limit) := by decide +kernel
  have hten : 10 ≤ 10 ^ n := Nat.le_self_pow hpos.ne' 10
  have hle : 10 ^ n * scale ≤ 10 ^ 308 * scale :=
    Nat.mul_le_mul_right _ (Nat.pow_le_pow_right (by decide) hn)
  have hlimit : roundUnits (10 ^ n * scale) 1 < limit :=
    roundUnits_lt_limit Nat.one_pos (by omega)
  have hunits : (tenPow n).units = roundUnits (10 ^ n * scale) 1 := by
    show ((ofUnits? false (10 ^ n * scale) 1).getD zero).units = _
    simp only [ofUnits?, if_pos hlimit, Option.getD_some]
  obtain ⟨-, hbelow⟩ := roundUnits_mul_scale (10 ^ n)
  have hscale : 10 * scale ≤ 10 ^ n * scale := Nat.mul_le_mul_right _ hten
  omega

/-- A quotient by ten to a power is finite unless the dividend is very large. -/
theorem isSome_div?_tenPow {f : Binary64} (hf : 2 * f.units + topSpacing < 2 * limit) {n : Nat}
    (hpos : 0 < n) (hn : n ≤ 308) : (f.div? (tenPow n)).isSome = true := by
  have hpow := tenPow_spec hpos hn
  have hscale := scale_pos
  have hden : 0 < (tenPow n).units := by omega
  refine isSome_ofUnits? (roundUnits_lt_limit hden ?_)
  calc 2 * (f.units * scale) + (tenPow n).units * topSpacing
      ≤ 2 * (f.units * (tenPow n).units) + (tenPow n).units * topSpacing := by
        gcongr
        omega
    _ = (tenPow n).units * (2 * f.units + topSpacing) := by ring
    _ < (tenPow n).units * (2 * limit) := Nat.mul_lt_mul_of_pos_left hf hden

/-- A quotient by ten to a power is no larger than the dividend. -/
theorem units_div?_tenPow_le {f x : Binary64} {n : Nat} (hpos : 0 < n) (hn : n ≤ 308)
    (h : f.div? (tenPow n) = some x) : x.units ≤ f.units := by
  have hpow := tenPow_spec hpos hn
  have hscale := scale_pos
  have hden : 0 < (tenPow n).units := by omega
  have hquarter : 4 * (f.units * scale) ≤ f.units * (tenPow n).units := by
    rw [Nat.mul_left_comm]
    exact Nat.mul_le_mul_left _ hpow
  rw [units_of_ofUnits? h]
  obtain ⟨habove, -⟩ := roundUnits_spec (f.units * scale) hden
  generalize roundUnits (f.units * scale) (tenPow n).units = r at *
  rcases Nat.eq_zero_or_pos (f.units * scale / (tenPow n).units) with hzero | hquotient
  · rw [hzero, show spacing 0 = 1 from rfl, Nat.mul_one] at habove
    have hle : 4 * r * (tenPow n).units ≤ (f.units + 2) * (tenPow n).units := by linarith
    have hcancel := Nat.le_of_mul_le_mul_right hle hden
    omega
  · have hspacing := Nat.mul_le_mul_left (tenPow n).units (spacing_le hquotient)
    have hfloor := Nat.mul_div_le (f.units * scale) (tenPow n).units
    have hle : 8 * r * (tenPow n).units ≤ 3 * f.units * (tenPow n).units := by linarith
    have hcancel := Nat.le_of_mul_le_mul_right hle hden
    omega

end Binary64

namespace Numeral

open Binary64

/-- A division by `10 ^ 308` does not make a number larger. -/
theorem shrink_units_le (n : Nat) (f : Binary64) : (shrink n f).units ≤ f.units := by
  induction n generalizing f with
  | zero => exact le_rfl
  | succ n ih =>
    rw [shrink]
    split
    · exact le_rfl
    refine (ih _).trans ?_
    cases hdiv : f.div? (tenPow 308) with
    | none => exact Nat.zero_le _
    | some x => exact units_div?_tenPow_le (by decide) le_rfl hdiv

/-- Every significand is read with every negative exponent. -/
theorem isSome_scaled?_of_neg {significand : Nat} (hsignificand : significand ≤ maxSignificand)
    {exponent : Int} (hexponent : exponent < 0) : (scaled? significand exponent).isSome = true := by
  have hmax : (2 ^ 53 + 1) * (2 * (maxSignificand * scale)) + 2 ^ 53 * topSpacing <
      2 ^ 53 * (2 * limit) := by decide +kernel
  have hunits := two_pow_mul_ofNat_le significand
  have hscale := Nat.mul_le_mul_right scale hsignificand
  have hshrink := shrink_units_le ((exponent.natAbs - 1) / 308) (ofNat significand)
  rw [scaled?, if_neg (by omega)]
  exact isSome_div?_tenPow (by omega) (by omega) (by omega)

/-- A decimal that is far enough below the limit is read. -/
theorem isSome_scaled?_of_mul_le {significand exponent : Nat} (hexponent : exponent ≤ 308)
    (h : 4 * (significand * 10 ^ exponent * scale) ≤ (2 ^ 55 - 10) * topSpacing) :
    (scaled? significand exponent).isSome = true := by
  have hfirst := two_pow_mul_ofNat_le significand
  have hsecond : 2 ^ 53 * (tenPow exponent).units ≤ (2 ^ 53 + 1) * (10 ^ exponent * scale) :=
    two_pow_mul_ofNat_le (10 ^ exponent)
  rw [scaled?, if_pos (Int.natCast_nonneg _), if_pos (by omega), Int.toNat_natCast]
  refine isSome_ofUnits? (roundUnits_lt_limit scale_pos ?_)
  generalize (ofNat significand).units = f at *
  generalize (tenPow exponent).units = p at *
  have hproduct : 2 ^ 106 * (f * p) ≤
      (2 ^ 53 + 1) ^ 2 * (significand * 10 ^ exponent * scale * scale) := by
    calc 2 ^ 106 * (f * p) = (2 ^ 53 * f) * (2 ^ 53 * p) := by ring
      _ ≤ ((2 ^ 53 + 1) * (significand * scale)) * ((2 ^ 53 + 1) * (10 ^ exponent * scale)) :=
        Nat.mul_le_mul hfirst hsecond
      _ = (2 ^ 53 + 1) ^ 2 * (significand * 10 ^ exponent * scale * scale) := by ring
  have hscaled : 4 * (significand * 10 ^ exponent * scale * scale) ≤
      (2 ^ 55 - 10) * (topSpacing * scale) := by
    calc 4 * (significand * 10 ^ exponent * scale * scale)
        = 4 * (significand * 10 ^ exponent * scale) * scale := (Nat.mul_assoc _ _ _).symm
      _ ≤ (2 ^ 55 - 10) * topSpacing * scale := Nat.mul_le_mul_right scale h
      _ = (2 ^ 55 - 10) * (topSpacing * scale) := Nat.mul_assoc _ _ _
  have hpos : 0 < topSpacing * scale := Nat.mul_pos topSpacing_pos scale_pos
  have hlimit : scale * (2 * limit) = 2 ^ 54 * (topSpacing * scale) := by
    rw [limit_eq]
    ring
  rw [hlimit, Nat.mul_comm scale topSpacing]
  generalize topSpacing * scale = t at *
  generalize significand * 10 ^ exponent * scale * scale = d at *
  generalize f * p = m at *
  omega

end Numeral

end JsonEmbed
