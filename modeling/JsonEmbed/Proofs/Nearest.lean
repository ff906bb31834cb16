import JsonEmbed.Number.Decimal
import JsonEmbed.Proofs.RoundTrip
import Mathlib.Algebra.Order.Group.Unbundled.Abs

/-!
# Correct rounding

A magnitude is nearest to a rational number of units if no other one is nearer, and if of two that
are equally near it is the one with an even count of spacings (`Binary64.IsNearest`). There is only
one such magnitude (`Binary64.IsNearest.unique`), and rounding finds it
(`Binary64.isNearest_roundUnits`). So reading a decimal gives the nearest number, if this is finite
(`Extended.ofDecimal_eq_finite_iff`): what the reader does for very large and very small decimals
are shortcuts and no exceptions.

Rounding looks at the counts of one spacing only, the one at the quotient. That no other magnitude
is nearer has one reason on each side: above the quotient spacings are multiples of this one, and
below the first magnitude with this spacing everything is further away than that magnitude.
-/

namespace JsonEmbed

namespace Binary64

/-- A magnitude is nearest to a rational number of units: none is nearer, and if one is equally near
then the magnitude has an even count of spacings. -/
structure IsNearest (q : ℚ) (u : Nat) : Prop where
  dvd : spacing u ∣ u
  le : ∀ v, spacing v ∣ v → |(u : ℚ) - q| ≤ |(v : ℚ) - q|
  even : ∀ v, spacing v ∣ v → v ≠ u → |(u : ℚ) - q| = |(v : ℚ) - q| → u / spacing u % 2 = 0

/-! ### Spacings of larger magnitudes -/

theorem spacing_dvd_spacing {u v : Nat} (h : u ≤ v) : spacing u ∣ spacing v := by
  rcases Nat.eq_zero_or_pos u with rfl | hpos
  · exact Nat.one_dvd _
  · have hlog : u.log2 ≤ v.log2 :=
      (Nat.le_log2 (by omega)).2 ((Nat.log2_self_le hpos.ne').trans h)
    exact Nat.pow_dvd_pow 2 (by omega)

/-- The spacing of a count with 53 bits. -/
theorem spacing_mul_two_pow {n k : Nat} (hlow : 2 ^ k ≠ 1 → 2 ^ 52 ≤ n) (hhigh : n < 2 ^ 53) :
    spacing (n * 2 ^ k) = 2 ^ k := by
  by_cases hone : 2 ^ k = 1
  · rw [hone, Nat.mul_one]
    exact spacing_eq_one hhigh
  · exact spacing_eq_two_pow (Nat.mul_le_mul_right _ (hlow hone))
      (Nat.mul_lt_mul_of_pos_right hhigh (Nat.two_pow_pos k))

/-- From the first magnitude with a spacing on, magnitudes are multiples of it. -/
theorem two_pow_dvd_of_le {k v : Nat} (hv : spacing v ∣ v) (h : 2 ^ k ≠ 1 → 2 ^ 52 * 2 ^ k ≤ v) :
    2 ^ k ∣ v := by
  by_cases hone : 2 ^ k = 1
  · rw [hone]
    exact Nat.one_dvd v
  · have hfirst : spacing (2 ^ 52 * 2 ^ k) = 2 ^ k :=
      spacing_mul_two_pow (fun _ ↦ le_rfl) (by decide)
    exact (hfirst ▸ spacing_dvd_spacing (h hone)).trans hv

/-- An even count of spacings stays even where the spacing doubles. -/
theorem even_count {n k : Nat} (hlow : 2 ^ k ≠ 1 → 2 ^ 52 ≤ n) (hhigh : n ≤ 2 ^ 53)
    (heven : n % 2 = 0) : n * 2 ^ k / spacing (n * 2 ^ k) % 2 = 0 := by
  rcases Nat.lt_or_ge n (2 ^ 53) with hlt | hge
  · rwa [spacing_mul_two_pow hlow hlt, Nat.mul_div_cancel _ (Nat.two_pow_pos k)]
  · obtain rfl : n = 2 ^ 53 := Nat.le_antisymm hhigh hge
    have hdouble : 2 ^ 53 * 2 ^ k = 2 ^ 52 * 2 ^ (k + 1) := by ring
    rw [hdouble, spacing_mul_two_pow (fun _ ↦ le_rfl) (by decide),
      Nat.mul_div_cancel _ (Nat.two_pow_pos _)]
    decide

/-! ### Rounding finds the nearest magnitude -/

/-- Another multiple of a spacing is at least half of it away. -/
theorem half_le_abs_sub {n m gap : Nat} {q : ℚ} (hne : m ≠ n)
    (hnear : |((n * gap : Nat) : ℚ) - q| ≤ gap / 2) :
    (gap : ℚ) / 2 ≤ |((m * gap : Nat) : ℚ) - q| := by
  have happart : (gap : ℚ) ≤ |((m * gap : Nat) : ℚ) - (n * gap : Nat)| := by
    have hone : (1 : ℚ) ≤ |(m : ℚ) - n| := by
      have hint : (1 : ℤ) ≤ |(m : ℤ) - n| := Int.one_le_abs (by omega)
      exact_mod_cast hint
    have hgap : (0 : ℚ) ≤ gap := Nat.cast_nonneg gap
    rw [Nat.cast_mul, Nat.cast_mul, ← sub_mul, abs_mul, abs_of_nonneg hgap]
    exact le_mul_of_one_le_left hgap hone
  have htriangle := abs_sub_le ((m * gap : Nat) : ℚ) q (n * gap : Nat)
  rw [abs_sub_comm q] at htriangle
  linarith

section Near

variable {n k : Nat} {q : ℚ} (hlow : 2 ^ k ≠ 1 → ((2 ^ 52 * 2 ^ k : Nat) : ℚ) ≤ q)
  (hnear : |((n * 2 ^ k : Nat) : ℚ) - q| ≤ ((2 ^ k : Nat) : ℚ) / 2)

include hlow hnear

/-- No other magnitude is nearer than a count of spacings half a spacing away, and none is equally
near unless the count is that far away. -/
theorem abs_sub_le_of_near {v : Nat} (hv : spacing v ∣ v) (hne : v ≠ n * 2 ^ k) :
    |((n * 2 ^ k : Nat) : ℚ) - q| ≤ |(v : ℚ) - q| ∧
      (|((n * 2 ^ k : Nat) : ℚ) - q| = |(v : ℚ) - q| →
        |((n * 2 ^ k : Nat) : ℚ) - q| = ((2 ^ k : Nat) : ℚ) / 2) := by
  by_cases hbelow : 2 ^ k ≠ 1 ∧ v < 2 ^ 52 * 2 ^ k
  · -- the first magnitude with this spacing lies between the other one and the number
    have hfirst : |((n * 2 ^ k : Nat) : ℚ) - q| ≤ |((2 ^ 52 * 2 ^ k : Nat) : ℚ) - q| := by
      by_cases hcount : 2 ^ 52 = n
      · rw [hcount]
      · exact hnear.trans (half_le_abs_sub hcount hnear)
    have hle := hlow hbelow.1
    have hlt : (v : ℚ) < (2 ^ 52 * 2 ^ k : Nat) := Nat.cast_lt.2 hbelow.2
    have hfurther : |((n * 2 ^ k : Nat) : ℚ) - q| < |(v : ℚ) - q| := by
      rw [abs_of_nonpos (sub_nonpos.2 hle)] at hfirst
      rw [abs_of_nonpos (sub_nonpos.2 (hlt.le.trans hle))]
      linarith
    exact ⟨hfurther.le, fun heq ↦ absurd heq hfurther.ne⟩
  · have hdvd : 2 ^ k ∣ v := two_pow_dvd_of_le hv fun hone ↦
      Nat.not_lt.1 fun hlt ↦ hbelow ⟨hone, hlt⟩
    obtain ⟨m, rfl⟩ := hdvd
    rw [Nat.mul_comm (2 ^ k) m] at hne ⊢
    have hcount : m ≠ n := fun h ↦ hne (congrArg (· * 2 ^ k) h)
    have hhalf := half_le_abs_sub hcount hnear
    exact ⟨hnear.trans hhalf, fun heq ↦ le_antisymm hnear (hhalf.trans heq.ge)⟩

/-- A count of spacings half a spacing away is nearest if it is even or nearer than that. -/
theorem isNearest_of_near (hn : n ≤ 2 ^ 53)
    (hties : n % 2 = 0 ∨ |((n * 2 ^ k : Nat) : ℚ) - q| ≠ ((2 ^ k : Nat) : ℚ) / 2) :
    IsNearest q (n * 2 ^ k) := by
  have hcount : 2 ^ k ≠ 1 → 2 ^ 52 ≤ n := by
    intro hone
    have hfirst := hlow hone
    have hpos : (0 : ℚ) < (2 ^ k : Nat) := Nat.cast_pos.2 (Nat.two_pow_pos k)
    have hlt : ((2 ^ 52 * 2 ^ k : Nat) : ℚ) < ((n * 2 ^ k + 2 ^ k : Nat) : ℚ) := by
      have hle := (abs_le.1 hnear).1
      rw [Nat.cast_add]
      linarith
    rw [Nat.cast_lt, ← Nat.succ_mul] at hlt
    exact Nat.le_of_lt_succ (Nat.lt_of_mul_lt_mul_right hlt)
  refine ⟨spacing_dvd_mul_two_pow hn k, fun v hv ↦ ?_, fun v hv hne heq ↦ ?_⟩
  · by_cases hne : v = n * 2 ^ k
    · rw [hne]
    · exact (abs_sub_le_of_near hlow hnear hv hne).1
  · have htie := (abs_sub_le_of_near hlow hnear hv hne).2 heq
    exact even_count hcount hn (hties.resolve_right fun h ↦ h htie)

end Near

/-- **Rounding finds the nearest magnitude.** -/
theorem isNearest_roundUnits (num : Nat) {den : Nat} (hden : 0 < den) :
    IsNearest (num / den) (roundUnits num den) := by
  obtain ⟨n, hn, hround, hlow, hhigh, hties⟩ := exists_near_count num hden
  have hden' : (0 : ℚ) < den := Nat.cast_pos.2 hden
  have hfirst : spacing (num / den) ≠ 1 →
      ((2 ^ 52 * spacing (num / den) : Nat) : ℚ) ≤ num / den := by
    intro hone
    have hle := (Nat.le_div_iff_mul_le hden).1 (two_pow_mul_spacing_le_of_ne_one hone)
    rw [le_div_iff₀ hden']
    exact_mod_cast hle
  have hgap := spacing_eq (num / den)
  generalize (num / den).log2 - 52 = k at hgap
  rw [hgap] at hfirst hround hlow hhigh hties
  rw [hround]
  have hscaled : |((n * 2 ^ k : Nat) : ℚ) - num / den| * den =
      |((n * (2 ^ k * den) : Nat) : ℚ) - num| := by
    have hsub : ((n * (2 ^ k * den) : Nat) : ℚ) - num =
        (((n * 2 ^ k : Nat) : ℚ) - num / den) * den := by
      rw [sub_mul, div_mul_cancel₀ _ hden'.ne', ← Nat.mul_assoc, Nat.cast_mul (n * 2 ^ k)]
    rw [hsub, abs_mul, abs_of_pos hden']
  have hlow' : 2 * ((n * (2 ^ k * den) : Nat) : ℚ) ≤ 2 * num + (2 ^ k * den : Nat) := by
    exact_mod_cast hlow
  have hhigh' : 2 * (num : ℚ) ≤ 2 * (n * (2 ^ k * den) : Nat) + (2 ^ k * den : Nat) := by
    exact_mod_cast hhigh
  refine isNearest_of_near hfirst ?_ hn (hties.imp_right fun hne heq ↦ ?_)
  · refine le_of_mul_le_mul_right ?_ hden'
    rw [hscaled, div_mul_eq_mul_div, ← Nat.cast_mul, abs_le]
    constructor <;> linarith
  · rw [heq, div_mul_eq_mul_div, ← Nat.cast_mul] at hscaled
    rcases abs_choice (((n * (2 ^ k * den) : Nat) : ℚ) - num) with habs | habs
    · refine hne.1 ?_
      have htie : 2 * ((n * (2 ^ k * den) : Nat) : ℚ) = 2 * num + (2 ^ k * den : Nat) := by
        linarith
      exact_mod_cast htie
    · refine hne.2 ?_
      have htie : 2 * (num : ℚ) = 2 * (n * (2 ^ k * den) : Nat) + (2 ^ k * den : Nat) := by
        linarith
      exact_mod_cast htie

/-! ### There is one nearest magnitude -/

/-- The magnitude that follows one. -/
theorem spacing_dvd_add_spacing {u : Nat} (hu : spacing u ∣ u) :
    spacing (u + spacing u) ∣ u + spacing u := by
  have hcount : u + spacing u = (u / spacing u + 1) * spacing u := by
    rw [Nat.add_one_mul (u / spacing u), Nat.div_mul_cancel hu]
  rw [hcount, spacing_eq u]
  exact spacing_dvd_mul_two_pow (div_spacing_lt u) _

/-- Of two magnitudes that follow each other, one has an odd count of spacings. -/
theorem odd_of_even {u : Nat} (hu : spacing u ∣ u) (heven : u / spacing u % 2 = 0) :
    (u + spacing u) / spacing (u + spacing u) % 2 = 1 := by
  have hcount : u + spacing u = (u / spacing u + 1) * spacing u := by
    rw [Nat.add_one_mul (u / spacing u), Nat.div_mul_cancel hu]
  have hlow : spacing u ≠ 1 → 2 ^ 52 ≤ u / spacing u + 1 := fun hone ↦
    ((Nat.le_div_iff_mul_le (spacing_pos u)).2 (two_pow_mul_spacing_le_of_ne_one hone)).trans
      (Nat.le_succ _)
  have hhigh := div_spacing_lt u
  have hspacing : spacing (u + spacing u) = spacing u := by
    rw [hcount]
    rw [spacing_eq u] at hlow hhigh heven ⊢
    exact spacing_mul_two_pow hlow (by omega)
  rw [hspacing, Nat.add_div_right _ (spacing_pos u)]
  omega

/-- **There is only one nearest magnitude.** Between two that are equally near there is no other, so
they follow each other, and their counts of spacings are not both even. -/
theorem IsNearest.unique {q : ℚ} {u v : Nat} (hu : IsNearest q u) (hv : IsNearest q v) :
    u = v := by
  wlog hle : u ≤ v generalizing u v
  · exact (this hv hu (Nat.le_of_not_le hle)).symm
  by_contra hne
  have hlt : u < v := Nat.lt_of_le_of_ne hle hne
  have hdist : |(u : ℚ) - q| = |(v : ℚ) - q| := le_antisymm (hu.le v hv.dvd) (hv.le u hu.dvd)
  have hlt' : (u : ℚ) < v := Nat.cast_lt.2 hlt
  have hmiddle : 2 * q = u + v := by
    rcases abs_eq_abs.1 hdist with h | h <;> linarith
  have hnext : v = u + spacing u := by
    have hgap := spacing_pos u
    rcases Nat.lt_trichotomy v (u + spacing u) with hbefore | heq | hafter
    · -- a multiple of the spacing is not less than a spacing away
      obtain ⟨a, ha⟩ := hu.dvd
      obtain ⟨b, hb⟩ := (spacing_dvd_spacing hle).trans hv.dvd
      rw [ha, hb] at hlt
      have hab : a < b := Nat.lt_of_mul_lt_mul_left hlt
      have hstep : spacing u * (a + 1) ≤ spacing u * b := Nat.mul_le_mul_left _ hab
      rw [Nat.mul_succ, ← ha, ← hb] at hstep
      omega
    · exact heq
    · -- the next magnitude would be nearer
      have hnearer := hu.le _ (spacing_dvd_add_spacing hu.dvd)
      have hgap' : (0 : ℚ) < spacing u := Nat.cast_pos.2 hgap
      have hafter' : ((u + spacing u : Nat) : ℚ) < v := Nat.cast_lt.2 hafter
      rw [abs_of_nonpos (by linarith : (u : ℚ) - q ≤ 0), Nat.cast_add] at hnearer
      rw [Nat.cast_add] at hafter'
      rcases abs_choice ((u : ℚ) + spacing u - q) with habs | habs <;> rw [habs] at hnearer <;>
        linarith
  have heven := hu.even v hv.dvd (Ne.symm hne) hdist
  have hodd := odd_of_even hu.dvd heven
  rw [← hnext, hv.even u hu.dvd hne hdist.symm] at hodd
  exact absurd hodd (by decide)

/-! ### Sizes of nearest magnitudes -/

/-- A magnitude that is not exceeded by a number is not above the nearest one. -/
theorem IsNearest.le_of_le {q : ℚ} {u w : Nat} (hu : IsNearest q u) (hw : spacing w ∣ w)
    (hle : (w : ℚ) ≤ q) : w ≤ u := by
  by_contra hlt
  have hlt' : (u : ℚ) < w := Nat.cast_lt.2 (Nat.not_le.1 hlt)
  have hnearer := hu.le w hw
  rw [abs_of_nonpos (by linarith : (u : ℚ) - q ≤ 0), abs_of_nonpos (by linarith)] at hnearer
  linarith

/-- What is below half a unit is nearest to zero. -/
theorem isNearest_iff_eq_zero {q : ℚ} (hq : 0 ≤ q) (hhalf : 2 * q < 1) {u : Nat} :
    IsNearest q u ↔ u = 0 := by
  have hzero : |((0 : Nat) : ℚ) - q| = q := by
    rw [Nat.cast_zero, zero_sub, abs_neg, abs_of_nonneg hq]
  constructor
  · intro hu
    have hnearer := hu.le 0 (Nat.dvd_zero _)
    rw [hzero] at hnearer
    have hlt : (u : ℚ) < 1 := by linarith [(abs_le.1 hnearer).2]
    exact Nat.lt_one_iff.1 (by exact_mod_cast hlt)
  · rintro rfl
    refine ⟨Nat.dvd_zero _, fun v hv ↦ ?_, fun _ _ _ _ ↦ rfl⟩
    rw [hzero]
    rcases Nat.eq_zero_or_pos v with rfl | hpos
    · exact hzero.ge
    · have hone : (1 : ℚ) ≤ v := by exact_mod_cast hpos
      exact le_trans (by linarith) (le_abs_self _)

/-- What has the size of the limit is nearest to no finite magnitude. -/
theorem IsNearest.limit_le {q : ℚ} {u : Nat} (hu : IsNearest q u) (hq : (limit : ℚ) ≤ q) :
    limit ≤ u := by
  have hlimit : spacing limit ∣ limit := by decide +kernel
  exact hu.le_of_le hlimit hq

/-- A quotient is rounded to a finite number if this is the nearest one. -/
theorem ofUnits?_eq_some_iff (negative : Bool) (num : Nat) {den : Nat} (hden : 0 < den)
    {x : Binary64} :
    ofUnits? negative num den = some x ↔
      x.negative = negative ∧ x.units < limit ∧ IsNearest (num / den) x.units := by
  have hround := isNearest_roundUnits num hden
  constructor
  · intro h
    rw [ofUnits?, Option.ite_none_right_eq_some] at h
    obtain ⟨hlimit, hx⟩ := h
    obtain rfl := Option.some.inj hx
    exact ⟨rfl, hlimit, hround⟩
  · rintro ⟨rfl, hlimit, hnearest⟩
    rw [ofUnits?, hround.unique hnearest]
    exact if_pos hlimit

end Binary64

/-! ### Reading decimals -/

namespace Extended

open Binary64

theorem ofUnits_eq_finite_iff {negative : Bool} {num den : Nat} {x : Binary64} :
    ofUnits negative num den = finite x ↔ ofUnits? negative num den = some x := by
  unfold ofUnits
  generalize ofUnits? negative num den = rounded
  cases rounded <;> simp

section Sizes

variable {d : Decimal} (hd : 0 < d.digits)

include hd

/-- A decimal whose leading digit stands far before the point is not finite. -/
theorem limit_le_of_leading (h : 400 ≤ leading d) : (limit : ℚ) ≤ d.value * scale := by
  have hmax : limit ≤ 10 ^ 400 * scale := by decide +kernel
  have hmax' := Nat.cast_le (α := ℚ).2 hmax
  rw [Nat.cast_mul, Nat.cast_pow, Nat.cast_ofNat, ← zpow_natCast] at hmax'
  have hpow : (10 : ℚ) ^ ((400 : Nat) : Int) ≤ 10 ^ leading d := zpow_le_zpow_right₀ (by norm_num) h
  exact hmax'.trans (mul_le_mul_of_nonneg_right (hpow.trans (leading_spec hd).1) cast_scale_pos.le)

/-- A decimal whose leading digit stands far behind the point is below half a unit. -/
theorem lt_one_of_leading (h : leading d < -400) : 2 * (d.value * scale) < 1 := by
  have hmin : 2 * scale ≤ 10 ^ 400 := by decide +kernel
  have hmin' := Nat.cast_le (α := ℚ).2 hmin
  rw [Nat.cast_mul, Nat.cast_pow, Nat.cast_ofNat, Nat.cast_ofNat, ← zpow_natCast] at hmin'
  have hpow : (10 : ℚ) ^ (leading d + 1) ≤ 10 ^ (-((400 : Nat) : Int)) :=
    zpow_le_zpow_right₀ (by norm_num) (by omega)
  have hten := ten_zpow_pos ((400 : Nat) : Int)
  calc 2 * (d.value * scale) = d.value * (2 * scale) := mul_left_comm _ _ _
    _ < 10 ^ (-((400 : Nat) : Int)) * (2 * scale) :=
      mul_lt_mul_of_pos_right ((leading_spec hd).2.trans_le hpow) (mul_pos two_pos cast_scale_pos)
    _ ≤ 10 ^ (-((400 : Nat) : Int)) * 10 ^ ((400 : Nat) : Int) :=
      mul_le_mul_of_nonneg_left hmin' (ten_zpow_pos _).le
    _ = 1 := by rw [zpow_neg, inv_mul_cancel₀ hten.ne']

end Sizes

/-- **Decimals are read with correct rounding.** A decimal is read as the number of the given sign
whose magnitude is nearest to it, if this is finite. -/
theorem ofDecimal_eq_finite_iff (negative : Bool) (d : Decimal) {x : Binary64} :
    ofDecimal negative d.digits d.exponent = finite x ↔
      x.negative = negative ∧ x.units < limit ∧ IsNearest (d.value * scale) x.units := by
  have hlimit : 0 < limit := by decide +kernel
  have hsmall : 0 ≤ d.value * scale → 2 * (d.value * scale) < 1 →
      ((⟨negative, 0⟩ : Binary64) = x ↔
        x.negative = negative ∧ x.units < limit ∧ IsNearest (d.value * scale) x.units) := by
    intro hnonneg hhalf
    obtain ⟨sign, u⟩ := x
    rw [isNearest_iff_eq_zero hnonneg hhalf, Binary64.mk.injEq]
    constructor
    · rintro ⟨rfl, rfl⟩
      exact ⟨rfl, hlimit, rfl⟩
    · rintro ⟨rfl, -, rfl⟩
      exact ⟨rfl, rfl⟩
  rw [ofDecimal]
  split
  · next hzero =>
    have hvalue : d.value * scale = 0 := by
      rw [Decimal.value, hzero, Nat.cast_zero, zero_mul, zero_mul]
    rw [finite.injEq]
    exact hsmall hvalue.ge (by rw [hvalue, mul_zero]; exact one_pos)
  next hpos =>
  have hd := Nat.pos_of_ne_zero hpos
  have hleading : d.exponent + (Nat.toDigits 10 d.digits).length = leading d + 1 := by
    rw [leading]
    omega
  rw [hleading]
  split
  · next hlarge =>
    have hunits := limit_le_of_leading hd (by omega)
    refine ⟨fun h ↦ absurd h (by simp), fun h ↦ ?_⟩
    obtain ⟨-, hfinite, hnearest⟩ := h
    exact absurd (hnearest.limit_le hunits) (Nat.not_le.2 hfinite)
  split
  · next htiny =>
    have hvalue : 0 < d.value := (ten_zpow_pos _).trans_le (leading_spec hd).1
    rw [finite.injEq]
    exact hsmall (mul_nonneg hvalue.le cast_scale_pos.le) (lt_one_of_leading hd (by omega))
  · have hround := ofUnits?_eq_some_iff negative d.inUnits.1 (inUnits_snd_pos d) (x := x)
    rw [inUnits_div] at hround
    exact ofUnits_eq_finite_iff.trans hround

end Extended

end JsonEmbed
