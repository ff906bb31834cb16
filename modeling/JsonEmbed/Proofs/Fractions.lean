import JsonEmbed.Proofs.Range
import JsonEmbed.Proofs.ShortestDecimal
import JsonEmbed.Proofs.Spelling

/-!
# Binary64 numbers are read back

Every binary64 number is written in a spelling (`Binary64.magnitude_eq`) which reading accepts, and
what is read is finite again (`Binary64.isSome_scaled?_spelling`). Written in full, a number has a
negative power of ten, and quotients are always finite. Written with an exponent, its decimal lies
no more than half a spacing above it, which leaves room for the roundings of reading; only the two
largest numbers are too close to the limit for this argument, and they are computed.

It need not be the same number that is read: see `Number.reread`.
-/

namespace JsonEmbed

namespace Spelling

open Binary64

/-- The decimal that a spelling denotes. -/
def decimal (p : Spelling) : Decimal :=
  ⟨p.significand, p.shift⟩

/-- The spelling that is written in full. -/
def positional (digits : List Char) (point : Int) : Spelling :=
  if point ≤ 0 then ⟨['0'], List.replicate (-point).toNat '0' ++ digits, none⟩
  else
    let whole := digits.take point.toNat
    let fraction := digits.drop point.toNat
    ⟨whole ++ List.replicate (point.toNat - whole.length) '0',
      if fraction.isEmpty then ['0'] else fraction, none⟩

/-- The spelling with an exponent. -/
def scientific (digits : List Char) (exponent : Int) : Spelling :=
  ⟨digits.take 1, digits.drop 1, some exponent⟩

theorem chars_positional {digits : List Char} (h : digits ≠ []) (point : Int) :
    (positional digits point).chars = FloatFormat.positional digits point := by
  have hfraction : ∀ cs : List Char, cs ≠ [] → ∀ whole : List Char,
      (Spelling.mk whole cs none).chars = whole ++ '.' :: cs := by
    intro cs hcs whole
    obtain ⟨c, rest, rfl⟩ := List.exists_cons_of_ne_nil hcs
    rw [chars, fractionChars, exponentChars, List.append_nil]
  rw [positional, FloatFormat.positional]
  split
  · exact hfraction _ (List.append_ne_nil_of_right_ne_nil _ h) ['0']
  · rw [hfraction]
    split
    · exact List.cons_ne_nil _ _
    · next hempty => exact fun hnil ↦ hempty (List.isEmpty_iff.2 hnil)

theorem chars_scientific (digits : List Char) (exponent : Int) :
    (scientific digits exponent).chars = FloatFormat.document.scientific digits exponent := by
  have hfraction : (scientific digits exponent).fractionChars =
      if (digits.drop 1).isEmpty then [] else '.' :: digits.drop 1 := by
    unfold fractionChars scientific
    dsimp only
    cases digits.drop 1 <;> rfl
  have hexponent : (scientific digits exponent).exponentChars =
      'e' :: (if exponent < 0 then [] else FloatFormat.document.positiveMark.toList) ++
        (decimalText exponent).toList := by
    show 'e' :: (if exponent < 0 then '-' else '+') :: Nat.toDigits 10 exponent.natAbs = _
    rw [decimalText]
    split
    · rw [String.toList_append, Nat.toList_repr]
      rfl
    · rw [Nat.toList_repr]
      rfl
  rw [chars, hfraction, hexponent]
  simp only [FloatFormat.scientific, List.append_assoc]
  rfl

/-! ### What is read -/

section Values

variable {n : Nat}

theorem le_maxSignificand (h : n ≤ 10 ^ 17) : n ≤ Numeral.maxSignificand := by
  have hle : 10 ^ 17 ≤ Numeral.maxSignificand := by decide
  omega

theorem ofDigitChars_zeros_append (k : Nat) (cs : List Char) :
    Nat.ofDigitChars 10 (List.replicate k '0' ++ cs) 0 = Nat.ofDigitChars 10 cs 0 := by
  rw [Nat.ofDigitChars_append, Nat.ofDigitChars_replicate_zero, Nat.mul_zero]

/-- Digits before and after a point, and no exponent, have a negative power of ten. -/
theorem isFraction_of_digits {whole fraction : List Char} (hwhole : IsDigits whole)
    (hfraction : IsDigits fraction) (hleading : IsLeading whole) (hne : fraction ≠ [])
    (hmax : Nat.ofDigitChars 10 (whole ++ fraction) 0 ≤ 10 ^ 17) :
    IsFraction ⟨whole, fraction, none⟩ ∧ shift ⟨whole, fraction, none⟩ < 0 := by
  refine ⟨⟨hwhole, hfraction, hleading, le_maxSignificand hmax, fun e he ↦ absurd he (by simp),
    Or.inl hne⟩, ?_⟩
  have hlength : 0 < fraction.length := List.length_pos_iff.2 hne
  show (0 : Int) - fraction.length < 0
  omega

/-- A number written in full has its digits on both sides of the point, and maybe zeros: in front of
them, or behind them up to one place after the point. -/
theorem positional_digits (hn : 0 < n) (point : Int) :
    ∃ (whole fraction : List Char) (k : Nat),
      positional (Nat.toDigits 10 n) point = ⟨whole, fraction, none⟩ ∧
      IsDigits whole ∧ IsDigits fraction ∧ IsLeading whole ∧ fraction ≠ [] ∧
      Nat.ofDigitChars 10 (whole ++ fraction) 0 = n * 10 ^ k ∧
      (fraction.length : Int) = (Nat.toDigits 10 n).length + k - point ∧
      (k = 0 ∨ ((Nat.toDigits 10 n).length + k : Int) = point + 1) := by
  have hdigits : IsDigits (Nat.toDigits 10 n) := .toDigits n
  have hvalue : Nat.ofDigitChars 10 (Nat.toDigits 10 n) 0 = n := Nat.ofDigitChars_ten_toDigits
  obtain ⟨c, rest, htext, hc⟩ := head_toDigits_ne_zero hn
  rw [positional]
  split
  · -- the point stands before all digits
    refine ⟨_, _, 0, rfl, .zeros 1, (IsDigits.zeros _).append hdigits, Or.inl rfl,
      List.append_ne_nil_of_right_ne_nil _ Nat.toDigits_ne_nil, ?_, ?_, Or.inl rfl⟩
    · show Nat.ofDigitChars 10 (List.replicate ((-point).toNat + 1) '0' ++ _) 0 = _
      rw [ofDigitChars_zeros_append, hvalue, Nat.pow_zero, Nat.mul_one]
    · rw [List.length_append, List.length_replicate]
      omega
  next hpos =>
  dsimp only
  obtain ⟨p, hp⟩ : ∃ p, point.toNat = p + 1 := ⟨point.toNat - 1, by omega⟩
  have hleading : IsLeading ((Nat.toDigits 10 n).take point.toNat) := by
    rw [htext, hp]
    exact Or.inr ⟨c, rest.take p, rfl, hc⟩
  rcases Nat.lt_or_ge point.toNat (Nat.toDigits 10 n).length with hinside | hbehind
  · -- the point stands between two digits
    have hwhole : ((Nat.toDigits 10 n).take point.toNat).length = point.toNat :=
      List.length_take_of_le hinside.le
    have hne : (Nat.toDigits 10 n).drop point.toNat ≠ [] :=
      fun h ↦ absurd (List.drop_eq_nil_iff.1 h) (by omega)
    rw [hwhole, Nat.sub_self, List.replicate_zero, List.append_nil,
      if_neg (mt List.isEmpty_iff.1 hne)]
    refine ⟨_, _, 0, rfl, .of_subset (List.take_subset _ _) hdigits,
      .of_subset (List.drop_subset _ _) hdigits, hleading, hne, ?_, ?_, Or.inl rfl⟩
    · rw [List.take_append_drop, hvalue, Nat.pow_zero, Nat.mul_one]
    · rw [List.length_drop]
      omega
  · -- the point stands behind all digits, and zeros fill the places up to it
    rw [List.take_of_length_le hbehind] at hleading ⊢
    rw [List.drop_eq_nil_of_le hbehind]
    generalize hk : point.toNat - (Nat.toDigits 10 n).length = k
    have hzeros : IsLeading (Nat.toDigits 10 n ++ List.replicate k '0') := by
      rw [htext]
      exact Or.inr ⟨c, rest ++ List.replicate k '0', rfl, hc⟩
    refine ⟨_, ['0'], k + 1, rfl, hdigits.append (.zeros k), .zeros 1, hzeros, List.cons_ne_nil _ _,
      ?_, ?_, Or.inr (by omega)⟩
    · show Nat.ofDigitChars 10 (Nat.toDigits 10 n ++ List.replicate k '0' ++
        List.replicate 1 '0') 0 = _
      rw [List.append_assoc, List.replicate_append_replicate, Nat.ofDigitChars_append, hvalue,
        Nat.ofDigitChars_replicate_zero, Nat.mul_comm]
    · rw [List.length_singleton]
      omega

theorem isFraction_positional (hn : 0 < n) (hmax : n ≤ 10 ^ 17) {point : Int}
    (hpoint : point ≤ 16) :
    (positional (Nat.toDigits 10 n) point).IsFraction ∧
      (positional (Nat.toDigits 10 n) point).shift < 0 := by
  obtain ⟨whole, fraction, k, hspelling, hwhole, hfraction, hleading, hne, hvalue, -, hk⟩ :=
    positional_digits hn point
  rw [hspelling]
  refine isFraction_of_digits hwhole hfraction hleading hne ?_
  rw [hvalue]
  rcases hk with rfl | hk
  · rwa [Nat.pow_zero, Nat.mul_one]
  · have hlt := (length_toDigits_spec hn).2
    have hpow : 10 ^ (Nat.toDigits 10 n).length * 10 ^ k ≤ 10 ^ 17 := by
      rw [← Nat.pow_add]
      exact Nat.pow_le_pow_right (by decide) (by omega)
    exact (Nat.mul_le_mul_right _ hlt.le).trans hpow

/-- Zeros do not change the value of what is written in full. -/
theorem value_positional (hn : 0 < n) (point : Int) :
    (positional (Nat.toDigits 10 n) point).decimal.value =
      n * 10 ^ (point - (Nat.toDigits 10 n).length) := by
  obtain ⟨whole, fraction, k, hspelling, -, -, -, -, hvalue, hlength, -⟩ :=
    positional_digits hn point
  have hshift : ((k : Nat) : Int) + (0 - fraction.length) =
      point - (Nat.toDigits 10 n).length := by omega
  rw [hspelling]
  show ((Nat.ofDigitChars 10 (whole ++ fraction) 0 : Nat) : ℚ) *
    10 ^ ((0 : Int) - fraction.length) = _
  rw [hvalue, ← hshift, zpow_add₀ (by norm_num), zpow_natCast]
  push_cast
  exact mul_assoc _ _ _

variable (n) in
/-- A number written with an exponent has its digits as its significand. -/
theorem significand_scientific (exponent : Int) :
    (scientific (Nat.toDigits 10 n) exponent).significand = n := by
  show Nat.ofDigitChars 10 ((Nat.toDigits 10 n).take 1 ++ (Nat.toDigits 10 n).drop 1) 0 = n
  rw [List.take_append_drop, Nat.ofDigitChars_ten_toDigits]

variable (n) in
theorem shift_scientific (exponent : Int) :
    (scientific (Nat.toDigits 10 n) exponent).shift =
      exponent - (Nat.toDigits 10 n).length + 1 := by
  have hlength : 0 < (Nat.toDigits 10 n).length := Nat.length_toDigits_pos
  show exponent - (((Nat.toDigits 10 n).drop 1).length : Int) = _
  rw [List.length_drop]
  omega

/-- A decimal is the one that its digits and the exponent of the leading one denote. -/
theorem decimal_scientific (d : Decimal) :
    (scientific (Nat.toDigits 10 d.digits) (leading d)).decimal = d := by
  have hexponent : leading d - (Nat.toDigits 10 d.digits).length + 1 = d.exponent := by
    rw [leading]
    omega
  rw [decimal, significand_scientific, shift_scientific, hexponent]

theorem isFraction_scientific (hn : 0 < n) (hmax : n ≤ 10 ^ 17) {exponent : Int}
    (hexponent : exponent.natAbs ≤ Numeral.maxExponent) :
    (scientific (Nat.toDigits 10 n) exponent).IsFraction := by
  have hdigits : IsDigits (Nat.toDigits 10 n) := .toDigits n
  obtain ⟨c, rest, htext, hc⟩ := head_toDigits_ne_zero hn
  have hleading : IsLeading ((Nat.toDigits 10 n).take 1) := by
    rw [htext]
    exact Or.inr ⟨c, [], rfl, hc⟩
  refine ⟨.of_subset (List.take_subset _ _) hdigits, .of_subset (List.drop_subset _ _) hdigits,
    hleading, (significand_scientific n exponent).le.trans (le_maxSignificand hmax), ?_, Or.inr rfl⟩
  intro e he
  obtain rfl := Option.some.inj he
  exact hexponent

end Values

end Spelling

namespace Binary64

/-- How a magnitude is written. -/
def spelling (u : Nat) : Spelling :=
  let d := shortest .toEven u
  let digits := Nat.toDigits 10 d.digits
  if u = 0 ∨ -5 ≤ leading d ∧ leading d < 16 then .positional digits (leading d + 1)
  else .scientific digits (leading d)

theorem magnitude_eq (u : Nat) :
    FloatFormat.document.magnitude u = String.ofList (spelling u).chars := by
  rw [FloatFormat.magnitude, spelling]
  congr 1
  show (if u = 0 ∨ -5 ≤ leading (shortest .toEven u) ∧ leading (shortest .toEven u) < 16 then _
    else _) = _
  split
  · exact (Spelling.chars_positional Nat.toDigits_ne_nil _).symm
  · exact (Spelling.chars_scientific _ _).symm

/-- The exponents of magnitudes are small. -/
theorem decimalExponent_bounds {u : Nat} (hu : 0 < u) (h : u < limit) :
    -330 ≤ decimalExponent u ∧ decimalExponent u ≤ 308 := by
  have hmax : limit ≤ 10 ^ 309 * scale := by decide +kernel
  have hsmall : (u : ℚ) < 10 ^ 309 * scale := by exact_mod_cast h.trans_le hmax
  have hlow := (decimalExponent_spec hu).1
  constructor
  · rw [decimalExponent]
    generalize hdigits : Nat.toDigits 10 _ = digits
    have hlength : 0 < digits.length := hdigits ▸ Nat.length_toDigits_pos
    omega
  · have hpow : (10 : ℚ) ^ decimalExponent u < 10 ^ ((309 : Nat) : Int) := by
      rw [zpow_natCast]
      refine hlow.trans_lt ?_
      rwa [rational, div_lt_iff₀ cast_scale_pos]
    have hlt := (zpow_lt_zpow_iff_right₀ (by norm_num)).1 hpow
    omega

theorem spelling_zero : spelling 0 = ⟨['0'], ['0'], none⟩ :=
  rfl

/-- A number is written in full or with an exponent, and then the digits are those of its shortest
decimal. -/
theorem spelling_cases {u : Nat} (hu : 0 < u) :
    leading (shortest .toEven u) < 16 ∧
        spelling u = .positional (Nat.toDigits 10 (shortest .toEven u).digits)
          (leading (shortest .toEven u) + 1) ∨
      spelling u = .scientific (Nat.toDigits 10 (shortest .toEven u).digits)
        (leading (shortest .toEven u)) := by
  rw [spelling]
  split
  · next h => exact Or.inl ⟨(h.resolve_left hu.ne').2, rfl⟩
  · exact Or.inr rfl

/-- **What is written for a number denotes its shortest decimal.** -/
theorem value_spelling {u : Nat} (hu : 0 < u) :
    (spelling u).decimal.value = (shortest .toEven u).value := by
  rcases spelling_cases hu with ⟨-, hspelling⟩ | hspelling <;> rw [hspelling]
  · have hexponent : leading (shortest .toEven u) + 1 -
        (Nat.toDigits 10 (shortest .toEven u).digits).length = (shortest .toEven u).exponent := by
      rw [leading]
      omega
    rw [Spelling.value_positional (shortest_spec .toEven hu).1, hexponent]
    rfl
  · rw [Spelling.decimal_scientific]

theorem isFraction_spelling {u : Nat} (h : u < limit) : (spelling u).IsFraction := by
  rcases Nat.eq_zero_or_pos u with rfl | hu
  · rw [spelling_zero]
    exact (Spelling.isFraction_of_digits (.zeros 1) (.zeros 1) (Or.inl rfl) (List.cons_ne_nil _ _)
      (Nat.zero_le _)).1
  obtain ⟨hpos, hmax, hlow, hhigh, -⟩ := shortest_spec .toEven hu
  obtain ⟨hleast, hgreatest⟩ := decimalExponent_bounds hu h
  rcases spelling_cases hu with ⟨hpoint, hspelling⟩ | hspelling <;> rw [hspelling]
  · exact (Spelling.isFraction_positional hpos hmax (by omega)).1
  · have hexponent : 400 ≤ Numeral.maxExponent := by decide
    exact Spelling.isFraction_scientific hpos hmax (by omega)

/-! ### Range -/

/-- There are two numbers above `(2 ^ 53 - 3) * topSpacing`. -/
theorem eq_largest {u : Nat} (h : Representable u) (hlarge : (2 ^ 53 - 3) * topSpacing < u) :
    u = (2 ^ 53 - 2) * topSpacing ∨ u = (2 ^ 53 - 1) * topSpacing := by
  have hpower : 2 ^ 2097 = 2 ^ 52 * topSpacing := by decide +kernel
  have htop : 2 ^ 52 * topSpacing ≤ u :=
    (Nat.mul_le_mul_right topSpacing (by decide)).trans hlarge.le
  have hpos : u ≠ 0 := by
    have := topSpacing_pos
    omega
  have hlog : 2097 ≤ u.log2 := by
    rw [Nat.le_log2 hpos, hpower]
    exact htop
  have hdvd : topSpacing ∣ u := (Nat.pow_dvd_pow 2 (by omega)).trans h.2
  have hu : u = u / topSpacing * topSpacing := (Nat.div_mul_cancel hdvd).symm
  have hlimit : u / topSpacing < 2 ^ 53 := by
    rw [Nat.div_lt_iff_lt_mul topSpacing_pos, ← limit_eq]
    exact h.1
  have habove : 2 ^ 53 - 3 < u / topSpacing := by
    rw [hu] at hlarge
    exact Nat.lt_of_mul_lt_mul_right hlarge
  have hcount : u / topSpacing = 2 ^ 53 - 2 ∨ u / topSpacing = 2 ^ 53 - 1 := by omega
  rcases hcount with hm | hm <;> rw [hm] at hu
  · exact Or.inl hu
  · exact Or.inr hu

/-- The shortest decimal of the largest numbers is read in range. -/
theorem isSome_scaled?_largest {u : Nat}
    (h : u = (2 ^ 53 - 2) * topSpacing ∨ u = (2 ^ 53 - 1) * topSpacing) :
    (Numeral.scaled? (shortest .toEven u).digits (shortest .toEven u).exponent).isSome = true := by
  rcases h with h | h <;> rw [h]
  · have hshortest : shortest .toEven ((2 ^ 53 - 2) * topSpacing) = ⟨17976931348623155, 292⟩ := by
      decide +kernel
    rw [hshortest]
    decide +kernel
  · have hshortest : shortest .toEven ((2 ^ 53 - 1) * topSpacing) = ⟨17976931348623157, 292⟩ := by
      decide +kernel
    rw [hshortest]
    decide +kernel

/-- A shortest decimal is read in range. -/
theorem isSome_scaled?_shortest {u : Nat} (h : Representable u) (hu : 0 < u) :
    (Numeral.scaled? (shortest .toEven u).digits (shortest .toEven u).exponent).isSome = true := by
  obtain ⟨hpos, hmax, hlow, hhigh, hend⟩ := shortest_spec .toEven hu
  rcases Nat.lt_or_ge ((2 ^ 53 - 3) * topSpacing) u with hlarge | hsmall
  · exact isSome_scaled?_largest (eq_largest h hlarge)
  rcases Int.lt_or_le (shortest .toEven u).exponent 0 with hneg | hnonneg
  · exact Numeral.isSome_scaled?_of_neg (Spelling.le_maxSignificand hmax) hneg
  obtain ⟨hleast, hgreatest⟩ := decimalExponent_bounds hu h.1
  generalize shortest .toEven u = d at *
  obtain ⟨e, he⟩ := Int.eq_ofNat_of_zero_le hnonneg
  rw [IsBelowEnd, Decimal.value, he, zpow_natCast] at hend
  have hnat : 4 * (d.digits * 10 ^ e * scale) ≤ upperEnd u := by exact_mod_cast hend
  have hspacing := spacing_le_topSpacing h.1
  have hupper : upperEnd u ≤ (2 ^ 55 - 10) * topSpacing := by
    show 4 * u + 2 * spacing u ≤ (2 ^ 55 - 10) * topSpacing
    omega
  have hle := hnat.trans hupper
  have hexponent : e ≤ 308 := by
    have hmax : (2 ^ 55 - 10) * topSpacing < 4 * (10 ^ 309 * scale) := by decide +kernel
    by_contra hgreater
    have hpow : 10 ^ 309 ≤ 10 ^ e := Nat.pow_le_pow_right (by decide) (by omega)
    have hdigits : 10 ^ 309 * scale ≤ d.digits * 10 ^ e * scale :=
      Nat.mul_le_mul_right scale (hpow.trans (Nat.le_mul_of_pos_left _ hpos))
    omega
  rw [he]
  exact Numeral.isSome_scaled?_of_mul_le hexponent hle

/-- **What a number is written as is in range when it is read.** -/
theorem isSome_scaled?_spelling {u : Nat} (h : Representable u) :
    (Numeral.scaled? (spelling u).significand (spelling u).shift).isSome = true := by
  have hfraction := isFraction_spelling h.1
  rcases Nat.eq_zero_or_pos u with rfl | hu
  · exact Numeral.isSome_scaled?_of_neg hfraction.significand_le (by decide)
  obtain ⟨hpos, hmax, -, -, -⟩ := shortest_spec .toEven hu
  rcases spelling_cases hu with ⟨hpoint, hspelling⟩ | hspelling
  · have hshift : (spelling u).shift < 0 := by
      rw [hspelling]
      exact (Spelling.isFraction_positional hpos hmax (by omega)).2
    exact Numeral.isSome_scaled?_of_neg hfraction.significand_le hshift
  · have hdecimal : (spelling u).decimal = shortest .toEven u := by
      rw [hspelling, Spelling.decimal_scientific]
    have hsome := isSome_scaled?_shortest h hu
    rw [← hdecimal] at hsome
    exact hsome

end Binary64

end JsonEmbed
