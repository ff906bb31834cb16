import JsonEmbed.Proofs.NumberText
import JsonEmbed.Proofs.RoundTrip

/-!
# Numbers that are reread as themselves

Reading rounds the significand, the power of ten, and their product or quotient. If the first two
are binary64 numbers, only the last rounding is left, and what is read is the number nearest to the
decimal. This is so for significands of at most `2 ^ 53` and powers of ten of at most 22 either way:
`10 ^ 22` is a power of two times `5 ^ 22`, which is below `2 ^ 53`. Since the text of a number is
rounded to it, such a number is reread as itself (`Binary64.reread_eq_self`).
-/

namespace JsonEmbed

namespace Binary64

/-! ### Exact operands -/

theorem scale_eq : scale = 2 ^ 1074 := by
  decide +kernel

/-- A natural number is exact if it has at most 53 bits, apart from a power of two. -/
theorem ofNat_mul_two_pow {n k : Nat} (hn : n ≤ 2 ^ 53) (hk : k ≤ 900) :
    ofNat (n * 2 ^ k) = ⟨false, n * 2 ^ k * scale⟩ := by
  have hround : roundUnits (n * 2 ^ k * scale) 1 = n * 2 ^ k * scale := by
    refine roundUnits_self ?_
    rw [scale_eq, Nat.mul_assoc, ← Nat.pow_add]
    exact spacing_dvd_mul_two_pow hn _
  have hlimit : n * 2 ^ k * scale < limit := by
    have hmax : 2 ^ 53 * 2 ^ 900 * scale < limit := by decide +kernel
    have hle : n * 2 ^ k ≤ 2 ^ 53 * 2 ^ 900 :=
      Nat.mul_le_mul hn (Nat.pow_le_pow_right (by decide) hk)
    exact (Nat.mul_le_mul_right scale hle).trans_lt hmax
  rw [ofNat, ofUnits?, hround, if_pos hlimit, Option.getD_some]

theorem ofNat_eq {n : Nat} (hn : n ≤ 2 ^ 53) : ofNat n = ⟨false, n * scale⟩ := by
  have hexact := ofNat_mul_two_pow hn (Nat.zero_le 900)
  rwa [Nat.pow_zero, Nat.mul_one] at hexact

theorem tenPow_eq {e : Nat} (he : e ≤ 22) : tenPow e = ⟨false, 10 ^ e * scale⟩ := by
  have hfive : 5 ^ e ≤ 2 ^ 53 :=
    (Nat.pow_le_pow_right (by decide) he).trans (by decide : 5 ^ 22 ≤ 2 ^ 53)
  have hten : 10 ^ e = 5 ^ e * 2 ^ e := Nat.mul_pow 5 2 e
  rw [tenPow, Nat.pow_eq, hten]
  exact ofNat_mul_two_pow hfive (by omega)

theorem ofUnits?_congr {num den num' den' : Nat} (negative : Bool) (hden : 0 < den)
    (hden' : 0 < den') (h : num * den' = num' * den) :
    ofUnits? negative num den = ofUnits? negative num' den' := by
  rw [ofUnits?, ofUnits?, roundUnits_eq_of_mul_eq hden hden' h]

end Binary64

namespace Numeral

open Binary64

/-- **With exact operands, a decimal is rounded once.** -/
theorem scaled?_eq_of_le {significand : Nat} {exponent : Int} (hsignificand : significand ≤ 2 ^ 53)
    (hexponent : exponent.natAbs ≤ 22) :
    scaled? significand exponent =
      ofUnits? false (Decimal.inUnits ⟨significand, exponent⟩).1
        (Decimal.inUnits ⟨significand, exponent⟩).2 := by
  have hscale := scale_pos
  have hden := inUnits_snd_pos ⟨significand, exponent⟩
  rw [scaled?, ofNat_eq hsignificand]
  split
  · next hnonneg =>
    rw [if_pos (by omega), tenPow_eq (by omega)]
    refine ofUnits?_congr false hscale hden ?_
    have hnone : (-exponent).toNat = 0 := by omega
    show significand * scale * (10 ^ exponent.toNat * scale) * 10 ^ (-exponent).toNat =
      significand * 10 ^ exponent.toNat * scale * scale
    rw [hnone]
    generalize scale = units
    ring
  · next hneg =>
    -- the power of ten is not split
    have hsteps : (exponent.natAbs - 1) / 308 = 0 := Nat.div_eq_of_lt (by omega)
    have hplaces : (-exponent).toNat = exponent.natAbs := by omega
    have hnone : exponent.toNat = 0 := by omega
    dsimp only
    rw [hsteps, Nat.mul_zero, Nat.sub_zero, tenPow_eq hexponent]
    refine ofUnits?_congr false (Nat.mul_pos (Nat.pow_pos (by decide)) hscale) hden ?_
    show significand * scale * scale * 10 ^ (-exponent).toNat =
      significand * 10 ^ exponent.toNat * scale * (10 ^ exponent.natAbs * scale)
    rw [hplaces, hnone]
    generalize scale = units
    ring

end Numeral

namespace Binary64

/-- The text of the number has a significand of at most `2 ^ 53` and a power of ten of at most 22
either way. -/
def IsModerate (x : Binary64) : Prop :=
  (spelling x.units).significand ≤ 2 ^ 53 ∧ (spelling x.units).shift.natAbs ≤ 22

/-- The decimal that a number is written as rounds to it. -/
theorem roundUnits_spelling {u : Nat} (h : spacing u ∣ u) :
    roundUnits (spelling u).decimal.inUnits.1 (spelling u).decimal.inUnits.2 = u := by
  rcases Nat.eq_zero_or_pos u with rfl | hu
  · decide +kernel
  · rw [roundUnits_inUnits_eq (value_spelling hu), roundUnits_shortest .toEven hu h]

/-- **A moderate number is reread as itself.** -/
theorem reread_eq_self {x : Binary64} (h : Representable x.units) (hmoderate : x.IsModerate) :
    x.reread = x := by
  obtain ⟨negative, u⟩ := x
  obtain ⟨hsignificand, hshift⟩ := hmoderate
  have hscaled := Numeral.scaled?_eq_of_le hsignificand hshift
  have hround := roundUnits_spelling h.2
  rw [reread, hscaled]
  show Binary64.mk negative ((ofUnits? false (spelling u).decimal.inUnits.1
    (spelling u).decimal.inUnits.2).getD zero).units = ⟨negative, u⟩
  rw [ofUnits?, hround, if_pos h.1]
  rfl

end Binary64

end JsonEmbed
