import JsonEmbed.Json.Reader
import JsonEmbed.Proofs.Fractions
import JsonEmbed.Proofs.Limits
import JsonEmbed.Query.Fragment.Value

/-!
# Numbers are read back

The text of a number goes through a query unharmed (`Query.Value.text_ofNumeral`), and as a part of
a document it is read as a number again, whatever follows it. An integer is read back as itself. A
fraction is read as `Binary64.reread` says: the sign is kept, and the magnitude is what the reader
computes from its significand and power of ten, which may be a neighbour.
-/

namespace JsonEmbed

/-! ### The number that a text is read as -/

namespace Binary64

/-- The number that the text of a number is read as. -/
def reread (x : Binary64) : Binary64 :=
  ⟨x.negative, ((Numeral.scaled? (spelling x.units).significand (spelling x.units).shift).getD
    .zero).units⟩

end Binary64

/-- The text of a fraction is its spelling, behind a minus sign for a negative one. -/
theorem FloatFormat.toList_text (x : Binary64) :
    (document.text x).toList =
      if x.negative then '-' :: (Binary64.spelling x.units).chars
      else (Binary64.spelling x.units).chars := by
  rw [text, Binary64.magnitude_eq]
  split
  · rw [String.toList_append]
    exact congrArg ('-' :: ·) String.toList_ofList
  · rw [String.toList_ofList]

/-! ### The first character of a number -/

/-- The characters begin with a digit. -/
def BeginsWithDigit (cs : List Char) : Prop :=
  ∃ c rest, cs = c :: rest ∧ c.isDigit = true

theorem beginsWithDigit_toDigits (n : Nat) : BeginsWithDigit (Nat.toDigits 10 n) := by
  obtain ⟨c, rest, htext⟩ := List.exists_cons_of_ne_nil (Nat.toDigits_ne_nil (n := n) (b := 10))
  exact ⟨c, rest, htext, IsDigits.toDigits n c (htext ▸ List.mem_cons_self)⟩

theorem Spelling.beginsWithDigit_chars {p : Spelling} (h : p.IsFraction) :
    BeginsWithDigit p.chars := by
  rcases h.leading with hzero | ⟨c, rest, htext, -⟩
  · exact ⟨'0', p.fractionChars ++ p.exponentChars, by rw [chars, hzero]; rfl, rfl⟩
  · have hc : c.isDigit = true := h.whole_digits c (htext ▸ List.mem_cons_self)
    exact ⟨c, rest ++ (p.fractionChars ++ p.exponentChars), by rw [chars, htext]; rfl, hc⟩

theorem BeginsWithDigit.exists_bytes_eq_cons {cs : List Char} (h : BeginsWithDigit cs) :
    ∃ b t, Utf8.bytes cs = b :: t ∧ Numeral.isDigit b = true := by
  obtain ⟨c, rest, rfl, hc⟩ := h
  obtain ⟨b, hb, hdigit⟩ := Numeral.exists_byte_of_isDigit hc
  refine ⟨b, Utf8.bytes rest, ?_, ?_⟩
  · rw [Utf8.bytes_cons, hb]
    rfl
  · rw [Numeral.isDigit, hdigit]
    rfl

namespace Number

/-- The number that the text of a number is read as. -/
def reread : Number → Number
  | integer i => integer i
  | double x => double x.reread

end Number

/-! ### Reading a number as a value -/

namespace Json

open Scanner Numeral

variable (d : Nat) {s : Bytes}

theorem encode_minus (text : String) :
    Utf8.encode ("-" ++ text) = 0x2d :: Utf8.encode text := by
  rw [Utf8.encode_append]
  rfl

theorem value_minus (s : Bytes) : value d (0x2d :: s) = numeral true s := by
  rw [value.eq_def]
  rfl

theorem toNat_of_isDigit {b : UInt8} (hb : isDigit b = true) : 0x30 ≤ b.toNat ∧ b.toNat ≤ 0x39 := by
  rw [isDigit, digit?] at hb
  split at hb
  · assumption
  · exact absurd hb (by decide)

/-- A digit is none of the bytes out of its range. -/
theorem ne_of_isDigit {b c : UInt8} (hb : isDigit b = true)
    (hc : ¬(0x30 ≤ c.toNat ∧ c.toNat ≤ 0x39)) : b ≠ c :=
  fun h ↦ hc (h ▸ toNat_of_isDigit hb)

theorem isBlank_of_isDigit {b : UInt8} (hb : isDigit b = true) : isBlank b = false := by
  simp [isBlank, ne_of_isDigit hb]

theorem value_of_isDigit {b : UInt8} (hb : isDigit b = true) (s : Bytes) :
    value d (b :: s) = numeral false (b :: s) := by
  have hne : ∀ c : UInt8, ¬(0x30 ≤ c.toNat ∧ c.toNat ≤ 0x39) → b ≠ c := fun c ↦ ne_of_isDigit hb
  have hblank : skipBlank (b :: s) = b :: s := by
    rw [skipBlank, List.dropWhile_cons_of_neg]
    rw [isBlank_of_isDigit hb]
    exact Bool.false_ne_true
  rw [value.eq_def, hblank]
  split <;> simp_all

theorem value_digits {cs : List Char} (hcs : BeginsWithDigit cs) (s : Bytes) :
    value d (Utf8.bytes cs ++ s) = numeral false (Utf8.bytes cs ++ s) := by
  obtain ⟨b, t, htext, hb⟩ := hcs.exists_bytes_eq_cons
  rw [htext]
  exact value_of_isDigit d hb _

/-- An integer is read back. -/
theorem value_decimalText {i : Int} (h : (Number.integer i).Valid) (hs : IsEnd s) :
    value d (Utf8.encode (decimalText i) ++ s) = .ok (number (.integer i), s) := by
  obtain ⟨hlow, hhigh⟩ := Number.valid_integer.1 h
  have hmax : maxSignificand = 2 ^ 64 - 1 := rfl
  have hn : i.natAbs ≤ maxSignificand := by omega
  rw [decimalText]
  split
  · next hneg =>
    have hwhole : whole true i.natAbs = .integer i := by
      have hpow : Nat.pow 2 63 = 2 ^ 63 := rfl
      have hfits : 0 < i.natAbs ∧ i.natAbs ≤ Nat.pow 2 63 := by omega
      rw [whole, if_pos rfl, if_pos hfits]
      congr 1
      omega
    rw [encode_minus, Utf8.encode_eq, Nat.toList_repr, List.cons_append, value_minus, numeral,
      unsigned_toDigits true hn hs, hwhole]
  · next hnonneg =>
    have hwhole : whole false i.natAbs = .integer i := by
      rw [whole, if_neg (by decide)]
      congr 1
      omega
    rw [Utf8.encode_eq, Nat.toList_repr, value_digits d (beginsWithDigit_toDigits _), numeral,
      unsigned_toDigits false hn hs, hwhole]

variable {x : Binary64} (h : Binary64.Representable x.units) (hs : IsEnd s)

include h hs

theorem numeral_magnitude :
    numeral x.negative (Utf8.bytes (Binary64.spelling x.units).chars ++ s) =
      .ok (number (.double x.reread), s) := by
  obtain ⟨f, hf⟩ := Option.isSome_iff_exists.1 (Binary64.isSome_scaled?_spelling h)
  rw [numeral, Spelling.unsigned_chars (Binary64.isFraction_spelling h.1) hs, double, hf,
    Binary64.reread, hf]
  rfl

/-- A fraction is read as a fraction of the same sign. -/
theorem value_text :
    value d (Utf8.encode (FloatFormat.document.text x) ++ s) =
      .ok (number (.double x.reread), s) := by
  have hnumeral := numeral_magnitude h hs
  rw [FloatFormat.text, Binary64.magnitude_eq]
  cases hnegative : x.negative with
  | true =>
    rw [hnegative] at hnumeral
    rw [if_pos rfl, encode_minus, Utf8.encode_ofList, List.cons_append, value_minus, hnumeral]
  | false =>
    have hfraction := Binary64.isFraction_spelling h.1
    rw [hnegative] at hnumeral
    rw [if_neg Bool.false_ne_true, Utf8.encode_ofList, ← hnumeral]
    exact value_digits d (Spelling.beginsWithDigit_chars hfraction) _

omit h in
/-- **The text of a number is read as the number that it is reread as.** -/
theorem value_numberText {n : Number} (h : n.Valid) :
    value d (Utf8.encode n.text ++ s) = .ok (number n.reread, s) := by
  cases n with
  | integer i => exact value_decimalText d h hs
  | double x => exact value_text d (Number.valid_double.1 h) hs

omit hs h in
/-- The text of a number begins with a sign or a digit. -/
theorem exists_encode_numberText_eq_cons {n : Number} (h : n.Valid) :
    ∃ b t, Utf8.encode n.text = b :: t ∧ (b = 0x2d ∨ isDigit b = true) := by
  have hsign : ∀ text : String,
      ∃ b t, Utf8.encode ("-" ++ text) = b :: t ∧ (b = 0x2d ∨ isDigit b = true) :=
    fun text ↦ ⟨0x2d, _, encode_minus text, Or.inl rfl⟩
  have hdigits : ∀ cs : List Char, BeginsWithDigit cs →
      ∃ b t, Utf8.bytes cs = b :: t ∧ (b = 0x2d ∨ isDigit b = true) := by
    intro cs hcs
    obtain ⟨b, t, htext, hb⟩ := hcs.exists_bytes_eq_cons
    exact ⟨b, t, htext, Or.inr hb⟩
  cases n with
  | integer i =>
    rw [Number.text, decimalText]
    split
    · exact hsign _
    · rw [Utf8.encode_eq, Nat.toList_repr]
      exact hdigits _ (beginsWithDigit_toDigits _)
  | double x =>
    have hfraction := Binary64.isFraction_spelling (Number.valid_double.1 h).1
    rw [Number.text, FloatFormat.text, Binary64.magnitude_eq]
    split
    · exact hsign _
    · rw [Utf8.encode_ofList]
      exact hdigits _ (Spelling.beginsWithDigit_chars hfraction)

end Json

/-! ### Numbers in a query -/

namespace Extended

theorem natural?_eq_some {cs : List Char} (hne : cs ≠ []) (h : IsDigits cs) :
    natural? cs = some (Nat.ofDigitChars 10 cs 0) :=
  if_pos ⟨hne, List.all_eq_true.2 h⟩

theorem natural?_toDigits (n : Nat) : natural? (Nat.toDigits 10 n) = some n := by
  rw [natural?_eq_some Nat.toDigits_ne_nil (.toDigits n), Nat.ofDigitChars_ten_toDigits]

theorem natural?_eq_none {cs : List Char} {c : Char} (hc : c ∈ cs) (hdigit : c.isDigit = false) :
    natural? cs = none := by
  refine if_neg fun h ↦ ?_
  have htrue := List.all_eq_true.1 h.2 c hc
  exact absurd (htrue.symm.trans hdigit) (by decide)

/-- Without a sign, an integer is its digits. -/
theorem integer?_of_isDigit {c : Char} (hc : c.isDigit = true) (rest : List Char) :
    integer? (c :: rest) = (natural? (c :: rest)).map fun n ↦ (n : Int) := by
  unfold integer?
  split
  · next h => exact absurd (List.cons.inj h).1 (digit_ne hc rfl)
  · next h => exact absurd (List.cons.inj h).1 (digit_ne hc rfl)
  · rfl

theorem integer?_decimalText (i : Int) : integer? (decimalText i).toList = some i := by
  rw [decimalText]
  split
  · next hneg =>
    rw [String.toList_append, Nat.toList_repr]
    show (natural? (Nat.toDigits 10 i.natAbs)).map (fun n ↦ -(n : Int)) = some i
    rw [natural?_toDigits]
    show some (-(i.natAbs : Int)) = some i
    congr 1
    omega
  · next hnonneg =>
    rw [Nat.toList_repr]
    obtain ⟨c, rest, htext, hc⟩ := beginsWithDigit_toDigits i.natAbs
    rw [htext, integer?_of_isDigit hc, ← htext, natural?_toDigits]
    show some (i.natAbs : Int) = some i
    congr 1
    omega

end Extended

namespace Spelling

variable {p : Spelling} (h : p.IsFraction)

include h

/-- A spelling has a point or the letter of an exponent. -/
theorem exists_mark : ∃ c ∈ p.chars, c.isDigit = false := by
  rcases h.marked with hfraction | hexponent
  · obtain ⟨c, cs, htext⟩ := List.exists_cons_of_ne_nil hfraction
    refine ⟨'.', ?_, rfl⟩
    rw [chars, fractionChars, htext]
    simp
  · obtain ⟨e, he⟩ := Option.isSome_iff_exists.1 hexponent
    refine ⟨'e', ?_, rfl⟩
    rw [chars, exponentChars, he]
    simp

/-- A spelling is no integer. -/
theorem integer?_chars : Extended.integer? p.chars = none ∧
    Extended.integer? ('-' :: p.chars) = none := by
  obtain ⟨m, hm, hmark⟩ := exists_mark h
  have hnatural := Extended.natural?_eq_none hm hmark
  obtain ⟨c, rest, htext, hc⟩ := beginsWithDigit_chars h
  constructor
  · rw [htext] at hnatural ⊢
    rw [Extended.integer?_of_isDigit hc, hnatural]
    rfl
  · rw [Extended.integer?, hnatural]
    rfl

end Spelling

namespace Query.Value

/-- **A number goes through a query as its text.** -/
theorem text_ofNumeral {n : Number} (h : n.Valid) : (ofNumeral n.text).text = n.text := by
  cases n with
  | integer i =>
    rw [ofNumeral, Number.text, Extended.integer?_decimalText]
    dsimp only
    split <;> rw [text]
  | double x =>
    obtain ⟨hpositive, hnegative⟩ :=
      Spelling.integer?_chars (Binary64.isFraction_spelling (Number.valid_double.1 h).1)
    have hnone : Extended.integer? (FloatFormat.document.text x).toList = none := by
      rw [FloatFormat.toList_text]
      split
      · exact hnegative
      · exact hpositive
    rw [ofNumeral, Number.text, hnone, text]

end Query.Value

end JsonEmbed
