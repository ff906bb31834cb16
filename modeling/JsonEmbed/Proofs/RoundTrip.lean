import JsonEmbed.Proofs.ShortestDecimal

/-!
# Shortest decimals round back

The decimal that is written for a magnitude is in the interval of the magnitudes that round to it
(`Binary64.search_spec`), and what is in this interval is rounded to it
(`Binary64.roundUnits_of_holds`). So a reader that rounds correctly would give every number back
(`Binary64.roundUnits_shortest`).

The quotient that is rounded has the spacing of the magnitude, with one exception: below the first
magnitude with a spacing, quotients have half of it.
-/

namespace JsonEmbed

namespace Binary64

/-! ### Spacings next to a magnitude -/

theorem spacing_eq_two_pow {q k : Nat} (hlow : 2 ^ 52 * 2 ^ k ≤ q) (hhigh : q < 2 ^ 53 * 2 ^ k) :
    spacing q = 2 ^ k := by
  have hpos : 0 < q := Nat.lt_of_lt_of_le (by positivity) hlow
  rw [← Nat.pow_add] at hlow hhigh
  have hlog : q.log2 = 52 + k := by
    rw [Nat.log2_eq_iff hpos.ne']
    exact ⟨hlow, by rwa [Nat.add_right_comm]⟩
  rw [spacing_eq, hlog, Nat.add_sub_cancel_left]

theorem spacing_eq_one {q : Nat} (h : q < 2 ^ 53) : spacing q = 1 := by
  rcases Nat.eq_zero_or_pos q with rfl | hpos
  · rfl
  · have hlog : q.log2 < 53 := (Nat.log2_lt hpos.ne').2 h
    rw [spacing_eq, Nat.sub_eq_zero_of_le (by omega), Nat.pow_zero]

/-- A magnitude with a spacing above one has at least `2 ^ 52` of them. -/
theorem two_pow_mul_spacing_le_of_ne_one {u : Nat} (h : spacing u ≠ 1) :
    2 ^ 52 * spacing u ≤ u := by
  refine two_pow_mul_spacing_le (Nat.not_lt.1 fun hlt ↦ h (spacing_eq_one ?_))
  exact hlt.trans (by decide)

/-- A quotient below the next power of two has the spacing of the magnitude if it is not below the
first magnitude with this spacing. -/
theorem spacing_eq_of_le {u q : Nat} (hlow : spacing u ≠ 1 → 2 ^ 52 * spacing u ≤ q)
    (hhigh : q < 2 ^ 53 * spacing u) : spacing q = spacing u := by
  by_cases hone : spacing u = 1
  · rw [hone] at hhigh ⊢
    exact spacing_eq_one hhigh
  · rw [spacing_eq u] at hlow hhigh hone ⊢
    exact spacing_eq_two_pow (hlow hone) hhigh

/-! ### Rounding within an interval -/

section Interval

variable {u num den : Nat} (hden : 0 < den) (hdvd : spacing u ∣ u)

include hden hdvd

/-- A quotient with the spacing of a magnitude is rounded to it from half a spacing away. -/
theorem roundUnits_eq_of_spacing_eq (hspacing : spacing (num / den) = spacing u)
    (hlow : 2 * (u * den) ≤ 2 * num + spacing u * den)
    (hhigh : 2 * num ≤ 2 * (u * den) + spacing u * den)
    (hties : u / spacing u % 2 = 0 ∨ 2 * (u * den) ≠ 2 * num + spacing u * den ∧
      2 * num ≠ 2 * (u * den) + spacing u * den) :
    roundUnits num den = u := by
  have hcount : u / spacing u * spacing u = u := Nat.div_mul_cancel hdvd
  have hround : roundUnits num den = u / spacing u * spacing u := by
    refine roundUnits_eq_of_near hden hspacing ?_ ?_ ?_ <;> rwa [hcount]
  rw [hround, hcount]

/-- Half a spacing above a magnitude, the next power of two is not reached. -/
theorem div_lt_of_le (hhigh : 2 * num ≤ 2 * (u * den) + spacing u * den) :
    num / den < 2 ^ 53 * spacing u := by
  have hgap : 0 < spacing u * den := Nat.mul_pos (spacing_pos u) hden
  have hnext : u * den + spacing u * den ≤ 2 ^ 53 * (spacing u * den) := by
    calc u * den + spacing u * den
        = (u / spacing u + 1) * (spacing u * den) := by
          rw [Nat.add_mul, ← Nat.mul_assoc, Nat.div_mul_cancel hdvd, Nat.one_mul]
      _ ≤ 2 ^ 53 * (spacing u * den) := Nat.mul_le_mul_right _ (div_spacing_lt u)
  rw [Nat.div_lt_iff_lt_mul hden, Nat.mul_assoc]
  omega

/-- Rounding to a magnitude that is not the first with its spacing. -/
theorem roundUnits_of_not_first (hfirst : ¬(spacing u ≠ 1 ∧ u = 2 ^ 52 * spacing u))
    (hlow : 2 * (u * den) ≤ 2 * num + spacing u * den)
    (hhigh : 2 * num ≤ 2 * (u * den) + spacing u * den)
    (hties : u / spacing u % 2 = 0 ∨ 2 * (u * den) ≠ 2 * num + spacing u * den ∧
      2 * num ≠ 2 * (u * den) + spacing u * den) :
    roundUnits num den = u := by
  refine roundUnits_eq_of_spacing_eq hden hdvd ?_ hlow hhigh hties
  refine spacing_eq_of_le (fun hne ↦ ?_) (div_lt_of_le hden hdvd hhigh)
  have hcount : u / spacing u * spacing u = u := Nat.div_mul_cancel hdvd
  have hle : 2 ^ 52 ≤ u / spacing u :=
    (Nat.le_div_iff_mul_le (spacing_pos u)).2 (two_pow_mul_spacing_le_of_ne_one hne)
  have hlt : 2 ^ 52 < u / spacing u :=
    Nat.lt_of_le_of_ne hle fun heq ↦ hfirst ⟨hne, by rw [heq, hcount]⟩
  have hsecond : (2 ^ 52 + 1) * (spacing u * den) ≤ u * den := by
    calc (2 ^ 52 + 1) * (spacing u * den)
        ≤ u / spacing u * (spacing u * den) := Nat.mul_le_mul_right _ hlt
      _ = u * den := by rw [← Nat.mul_assoc, hcount]
  rw [Nat.le_div_iff_mul_le hden, Nat.mul_assoc]
  omega

/-- Rounding to the first magnitude with a spacing. What lies below it has half of this spacing, and
is rounded up from half of that away. -/
theorem roundUnits_of_first (hne : spacing u ≠ 1) (hfirst : u = 2 ^ 52 * spacing u)
    (hlow : 4 * (u * den) ≤ 4 * num + spacing u * den)
    (hhigh : 2 * num ≤ 2 * (u * den) + spacing u * den) : roundUnits num den = u := by
  have hcount : u / spacing u = 2 ^ 52 := Nat.div_eq_of_eq_mul_left (spacing_pos u) hfirst
  rcases Nat.lt_or_ge num (u * den) with hbelow | habove
  · -- half of the spacing is there, and the magnitude is `2 ^ 53` times it
    have hexponent : u.log2 - 52 ≠ 0 := fun h ↦ hne (by rw [spacing_eq, h, Nat.pow_zero])
    obtain ⟨k, hk⟩ := Nat.exists_eq_succ_of_ne_zero hexponent
    have hgap : spacing u = 2 * 2 ^ k := by rw [spacing_eq, hk, Nat.pow_succ, Nat.mul_comm]
    have hu : u = 2 ^ 53 * 2 ^ k := by
      calc u = 2 ^ 52 * spacing u := hfirst
        _ = 2 ^ 53 * 2 ^ k := by rw [hgap, ← Nat.mul_assoc, ← Nat.pow_succ]
    have hgapDen : spacing u * den = 2 * (2 ^ k * den) := by rw [hgap, Nat.mul_assoc]
    have huDen : u * den = 2 ^ 53 * (2 ^ k * den) := by rw [hu, Nat.mul_assoc]
    rw [hgapDen] at hlow
    have hspacing : spacing (num / den) = 2 ^ k := by
      refine spacing_eq_two_pow ?_ ?_
      · rw [Nat.le_div_iff_mul_le hden, Nat.mul_assoc]
        omega
      · rwa [Nat.div_lt_iff_lt_mul hden, ← hu]
    rw [hu]
    refine roundUnits_eq_of_near hden hspacing ?_ ?_ (Or.inl (by decide)) <;> rw [← hu] <;> omega
  · refine roundUnits_eq_of_spacing_eq hden hdvd ?_ (by omega) hhigh (Or.inl (by rw [hcount]; rfl))
    refine spacing_eq_of_le (fun _ ↦ ?_) (div_lt_of_le hden hdvd hhigh)
    rwa [← hfirst, Nat.le_div_iff_mul_le hden]

end Interval

/-- **A decimal in the interval of a magnitude is rounded to it.** -/
theorem roundUnits_of_holds {u : Nat} {d : Decimal} (hu : 0 < u) (hdvd : spacing u ∣ u)
    (h : holds u d = true) : roundUnits d.inUnits.1 d.inUnits.2 = u := by
  obtain ⟨hlow, hhigh, hties⟩ := le_of_holds h
  have hden := inUnits_snd_pos d
  have hupper : upperEnd u = 4 * u + 2 * spacing u := rfl
  rw [hupper, Nat.add_mul, Nat.mul_assoc, Nat.mul_assoc] at hhigh hties
  generalize d.inUnits.1 = num at *
  generalize d.inUnits.2 = den at *
  rcases lowerEnd_cases hu with ⟨hne, hfirst, hend⟩ | ⟨hfirst, hend⟩
  · have hlower := congrArg (· * den) hend
    simp only [Nat.add_mul, Nat.mul_assoc] at hlower
    exact roundUnits_of_first hden hdvd hne hfirst (by omega) (by omega)
  · have hlower := congrArg (· * den) hend
    simp only [Nat.add_mul, Nat.mul_assoc] at hlower
    exact roundUnits_of_not_first hden hdvd hfirst (by omega) (by omega) (by omega)

/-- Decimals of one value are rounded alike. -/
theorem roundUnits_inUnits_eq {d e : Decimal} (h : d.value = e.value) :
    roundUnits d.inUnits.1 d.inUnits.2 = roundUnits e.inUnits.1 e.inUnits.2 := by
  have hd := inUnits_snd_pos d
  have he := inUnits_snd_pos e
  have hquotient : (d.inUnits.1 : ℚ) / d.inUnits.2 = e.inUnits.1 / e.inUnits.2 := by
    rw [inUnits_div, inUnits_div, h]
  have hd' : (d.inUnits.2 : ℚ) ≠ 0 := by exact_mod_cast hd.ne'
  have he' : (e.inUnits.2 : ℚ) ≠ 0 := by exact_mod_cast he.ne'
  rw [div_eq_div_iff hd' he'] at hquotient
  exact roundUnits_eq_of_mul_eq hd he (by exact_mod_cast hquotient)

/-- **The decimal that is written for a magnitude is rounded to it.** -/
theorem roundUnits_shortest (tie : Tie) {u : Nat} (hu : 0 < u) (hdvd : spacing u ∣ u) :
    roundUnits (shortest tie u).inUnits.1 (shortest tie u).inUnits.2 = u := by
  obtain ⟨⟨m, -, -, hnear⟩, hholds⟩ := search_spec tie hu 17 Nat.one_pos (by decide) (by decide)
  have hpos : 0 < (search tie u 17 1).digits :=
    Nat.lt_of_lt_of_le (Nat.pow_pos (by decide)) hnear.le_digits
  rw [shortest, if_neg hu.ne', roundUnits_inUnits_eq (dropZeros_spec 17 hpos).1]
  exact roundUnits_of_holds hu hdvd hholds

end Binary64

end JsonEmbed
