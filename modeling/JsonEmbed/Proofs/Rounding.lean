import JsonEmbed.Number.Binary64
import Mathlib.Algebra.Group.Nat.Defs
import Mathlib.Data.Nat.Basic

/-!
# Rounding

A rounded magnitude is a count of spacings, and there are at most `2 ^ 53` of them: this is what the
spacing is chosen for (`exists_count_of_roundUnits`). Such a magnitude is representable, also where
rounding goes up to the next power of two and the spacing doubles (`spacing_dvd_mul_two_pow`). So
what arithmetic gives is a number of the format whenever it is finite.

To find out what a quotient is rounded to, it is enough to know a count of spacings that is no more
than half a spacing away (`roundUnits_eq_of_near`).
-/

namespace JsonEmbed

namespace Binary64

/-! ### Spacings -/

theorem spacing_eq (u : Nat) : spacing u = 2 ^ (u.log2 - 52) :=
  rfl

theorem spacing_pos (u : Nat) : 0 < spacing u :=
  Nat.two_pow_pos _

theorem scale_pos : 0 < scale := by
  decide +kernel

theorem spacing_le {u : Nat} (h : 0 < u) : spacing u ≤ u := by
  have hpow : spacing u ≤ 2 ^ u.log2 := Nat.pow_le_pow_right (by decide) (Nat.sub_le _ _)
  exact Nat.le_trans hpow (Nat.log2_self_le (Nat.ne_of_gt h))

/-- A magnitude has fewer than `2 ^ 53` spacings. -/
theorem div_spacing_lt (u : Nat) : u / spacing u < 2 ^ 53 := by
  rw [Nat.div_lt_iff_lt_mul (spacing_pos u), spacing_eq, ← Nat.pow_add]
  have hpow : 2 ^ (u.log2 + 1) ≤ 2 ^ (53 + (u.log2 - 52)) :=
    Nat.pow_le_pow_right (by decide) (by omega)
  exact Nat.lt_of_lt_of_le Nat.lt_log2_self hpow

/-- Up to `2 ^ 53` multiples of a power of two are multiples of their own spacing. -/
theorem spacing_dvd_mul_two_pow {n : Nat} (hn : n ≤ 2 ^ 53) (k : Nat) :
    spacing (n * 2 ^ k) ∣ n * 2 ^ k := by
  rcases Nat.eq_zero_or_pos n with rfl | hpos
  · rw [Nat.zero_mul]
    exact Nat.dvd_zero _
  have hne : n * 2 ^ k ≠ 0 := Nat.ne_of_gt (Nat.mul_pos hpos (Nat.two_pow_pos k))
  rcases Nat.lt_or_ge n (2 ^ 53) with hlt | hge
  · have hlog : (n * 2 ^ k).log2 < 53 + k := by
      rw [Nat.log2_lt hne, Nat.pow_add]
      exact Nat.mul_lt_mul_of_pos_right hlt (Nat.two_pow_pos k)
    exact Nat.dvd_mul_left_of_dvd (Nat.pow_dvd_pow 2 (by omega)) n
  · -- all multiples are there: this is the next power of two, and its spacing is doubled
    obtain rfl : n = 2 ^ 53 := Nat.le_antisymm hn hge
    rw [← Nat.pow_add, spacing_eq, Nat.log2_two_pow]
    exact Nat.pow_dvd_pow 2 (by omega)

/-! ### Rounded magnitudes -/

/-- What is rounded is at most `2 ^ 53` spacings. -/
theorem exists_count_of_roundUnits (num den : Nat) :
    ∃ n ≤ 2 ^ 53, roundUnits num den = n * spacing (num / den) := by
  have hcount : num / (den * spacing (num / den)) < 2 ^ 53 := by
    rw [← Nat.div_div_eq_div_mul]
    exact div_spacing_lt _
  refine ⟨_, ?_, rfl⟩
  have hparity := Nat.mod_lt (num / (den * spacing (num / den))) (show 0 < 2 by decide)
  split
  · omega
  · split <;> omega

theorem spacing_dvd_roundUnits (num den : Nat) :
    spacing (roundUnits num den) ∣ roundUnits num den := by
  obtain ⟨n, hn, hround⟩ := exists_count_of_roundUnits num den
  rw [hround, spacing_eq (num / den)]
  exact spacing_dvd_mul_two_pow hn _

/-- Rounding gives a count of the spacing at the quotient, no more than half a spacing away, and an
even one if it is that far away. -/
theorem exists_near_count (num : Nat) {den : Nat} (hden : 0 < den) :
    ∃ n ≤ 2 ^ 53, roundUnits num den = n * spacing (num / den) ∧
      2 * (n * (spacing (num / den) * den)) ≤ 2 * num + spacing (num / den) * den ∧
      2 * num ≤ 2 * (n * (spacing (num / den) * den)) + spacing (num / den) * den ∧
      (n % 2 = 0 ∨
        2 * (n * (spacing (num / den) * den)) ≠ 2 * num + spacing (num / den) * den ∧
        2 * num ≠ 2 * (n * (spacing (num / den) * den)) + spacing (num / den) * den) := by
  obtain ⟨n, hn, hround⟩ := exists_count_of_roundUnits num den
  have hgap := spacing_pos (num / den)
  refine ⟨n, hn, hround, ?_⟩
  unfold roundUnits at hround
  dsimp only at hround
  have hcount := Nat.eq_of_mul_eq_mul_right hgap hround
  have hdivision := Nat.div_add_mod num (den * spacing (num / den))
  have hrest := Nat.mod_lt num (Nat.mul_pos hden hgap)
  rw [Nat.mul_comm (spacing (num / den)) den]
  clear hround
  generalize den * spacing (num / den) = step at *
  generalize num % step = rest at *
  generalize num / step = count at *
  rw [Nat.mul_comm] at hdivision
  split at hcount
  · subst hcount
    omega
  split at hcount
  · subst hcount
    rw [Nat.add_one_mul count step]
    omega
  · rcases Nat.mod_two_eq_zero_or_one count with heven | hodd
    · obtain rfl : count = n := by omega
      omega
    · obtain rfl : count + 1 = n := by omega
      rw [Nat.add_one_mul count step]
      omega

/-- Rounding goes up or down by no more than half a spacing. -/
theorem roundUnits_spec (num : Nat) {den : Nat} (hden : 0 < den) :
    2 * (roundUnits num den * den) ≤ 2 * num + den * spacing (num / den) ∧
      2 * num ≤ 2 * (roundUnits num den * den) + den * spacing (num / den) := by
  obtain ⟨n, -, hround, hlow, hhigh, -⟩ := exists_near_count num hden
  rw [hround, Nat.mul_assoc, Nat.mul_comm den]
  exact ⟨hlow, hhigh⟩

/-- Only the quotient is rounded: a common factor changes nothing. -/
theorem roundUnits_mul_right (num den : Nat) {k : Nat} (hk : 0 < k) :
    roundUnits (num * k) (den * k) = roundUnits num den := by
  have hquotient : num * k / (den * k) = num / den := Nat.mul_div_mul_right _ _ hk
  have hstep : den * k * spacing (num / den) = den * spacing (num / den) * k :=
    Nat.mul_right_comm _ _ _
  have hlt : ∀ a b : Nat, a * k < b * k ↔ a < b := fun a b ↦ Nat.mul_lt_mul_right hk
  unfold roundUnits
  simp only [hquotient, hstep, Nat.mul_div_mul_right _ _ hk, Nat.mul_mod_mul_right,
    ← Nat.mul_assoc, hlt]

theorem roundUnits_eq_of_mul_eq {num den num' den' : Nat} (hden : 0 < den) (hden' : 0 < den')
    (h : num * den' = num' * den) : roundUnits num den = roundUnits num' den' := by
  rw [← roundUnits_mul_right num den hden', h, Nat.mul_comm den den', roundUnits_mul_right _ _ hden]

/-- What lies no more than half a spacing from a count of spacings is rounded to it, if the count is
even or neither end of this range is reached. -/
theorem roundUnits_eq_of_near {num den count gap : Nat} (hden : 0 < den)
    (hgap : spacing (num / den) = gap)
    (hlow : 2 * (count * gap * den) ≤ 2 * num + gap * den)
    (hhigh : 2 * num ≤ 2 * (count * gap * den) + gap * den)
    (hties : count % 2 = 0 ∨ 2 * (count * gap * den) ≠ 2 * num + gap * den ∧
      2 * num ≠ 2 * (count * gap * den) + gap * den) :
    roundUnits num den = count * gap := by
  have hdivision := Nat.div_add_mod num (gap * den)
  have hrest := Nat.mod_lt num (Nat.mul_pos (hgap ▸ spacing_pos _) hden)
  unfold roundUnits
  dsimp only
  rw [hgap, Nat.mul_comm den gap]
  congr 1
  rw [Nat.mul_assoc, Nat.mul_comm count] at hlow hhigh hties
  generalize gap * den = step at *
  generalize num % step = rest at *
  generalize num / step = below at *
  rcases Nat.lt_trichotomy below count with hlt | rfl | hgt
  · -- the count lies above, so it is the next one
    have hnext : count = below + 1 := by
      by_contra hne
      have hle : step * (below + 2) ≤ step * count := Nat.mul_le_mul_left step (by omega)
      rw [Nat.mul_add] at hle
      omega
    subst hnext
    rw [Nat.mul_succ] at hlow hhigh hties
    split
    · omega
    split <;> omega
  · split
    · rfl
    split <;> omega
  · have hle : step * (count + 1) ≤ step * below := Nat.mul_le_mul_left step hgt
    rw [Nat.mul_succ] at hle
    split
    · omega
    split <;> omega

/-- A multiple of its spacing is rounded to itself. -/
theorem roundUnits_self {u : Nat} (h : spacing u ∣ u) : roundUnits u 1 = u := by
  have hcount : u / spacing u * spacing u = u := Nat.div_mul_cancel h
  have hpos := spacing_pos u
  have hgap : spacing (u / 1) = spacing u := by rw [Nat.div_one]
  have hround : roundUnits u 1 = u / spacing u * spacing u := by
    refine roundUnits_eq_of_near Nat.one_pos hgap ?_ ?_ ?_ <;> rw [hcount] <;> omega
  rw [hround, hcount]

/-- From `2 ^ 52` upwards, a spacing is a small part of a magnitude. -/
theorem two_pow_mul_spacing_le {u : Nat} (h : 2 ^ 52 ≤ u) : 2 ^ 52 * spacing u ≤ u := by
  have hne : u ≠ 0 := by omega
  have hlog : 52 ≤ u.log2 := (Nat.le_log2 hne).2 h
  rw [spacing_eq, ← Nat.pow_add, Nat.add_sub_cancel' hlog]
  exact Nat.log2_self_le hne

/-! ### Results of arithmetic -/

theorem representable_zero : Representable 0 := by
  decide +kernel

/-- The nearest number is a number of the format. -/
theorem representable_of_ofUnits? {negative : Bool} {num den : Nat} {x : Binary64}
    (h : ofUnits? negative num den = some x) : Representable x.units := by
  rw [ofUnits?] at h
  split at h
  · next hlimit =>
    obtain rfl := Option.some.inj h
    exact ⟨hlimit, spacing_dvd_roundUnits num den⟩
  · exact absurd h (by simp)

theorem representable_ofNat (n : Nat) : Representable (ofNat n).units := by
  rw [ofNat]
  cases h : ofUnits? false (n * scale) 1 with
  | none => exact representable_zero
  | some x => exact representable_of_ofUnits? h

end Binary64

end JsonEmbed
