import JsonEmbed.C.StringLiteral
import JsonEmbed.Proofs.Lines

/-!
# String literals read back

What a string literal denotes is found by one pass over its contents. A backslash begins an escape:
one more character, or octal digits, of which at most three are taken however many follow.
`C.read` is this pass, as a machine that knows whether it is between characters, after a backslash,
or in an octal escape.

Reading undoes writing (`read_escapeFrom`). The context that a character is written in, the
question mark before it, does not matter: however it was written, reading it takes exactly what was
written for it (`read_escapeAfter`). For octal escapes this is because all three digits are there.
-/

namespace JsonEmbed

namespace C

/-! ### Reading -/

/-- Where the reader of a string literal is. -/
inductive Reading where
  /-- Between characters. -/
  | plain
  /-- After a backslash. -/
  | escaped
  /-- After some digits of an octal escape, which have the given value so far. -/
  | octal (digits value : Nat)
  deriving DecidableEq

/-- The value of an octal digit. -/
def octalDigit? (c : Char) : Option Nat :=
  if '0' ≤ c ∧ c ≤ '7' then some (c.toNat - '0'.toNat) else none

/-- The character that an escape of one character denotes. -/
def simpleEscape (c : Char) : Char :=
  match c with
  | 'a' => '\x07'
  | 'b' => '\x08'
  | 't' => '\t'
  | 'n' => '\n'
  | 'v' => '\x0b'
  | 'f' => '\x0c'
  | 'r' => '\r'
  | c => c

/-- The characters that there is an escape of one character for. -/
def simpleEscapes : List Char :=
  ['\x27', '"', '?', '\\', 'a', 'b', 'f', 'n', 'r', 't', 'v']

/-- The text that the contents of a string literal denote. -/
def read : Reading → List Char → List Char
  | .plain, [] => []
  | .plain, c :: cs => if c = '\\' then read .escaped cs else c :: read .plain cs
  | .escaped, [] => []
  | .escaped, c :: cs =>
    match octalDigit? c with
    | some d => read (.octal 1 d) cs
    | none => simpleEscape c :: read .plain cs
  | .octal _ value, [] => [Char.ofNat value]
  | .octal digits value, c :: cs =>
    match octalDigit? c with
    | some d =>
      if digits < 2 then read (.octal (digits + 1) (8 * value + d)) cs
      else Char.ofNat (8 * value + d) :: read .plain cs
    | none =>
      Char.ofNat value :: (if c = '\\' then read .escaped cs else c :: read .plain cs)

/-! ### What is written for a character -/

/-- A character that is no control character. -/
def IsPrintable (c : Char) : Prop :=
  0x20 ≤ c.toNat ∧ c.toNat ≠ 0x7f

instance (c : Char) : Decidable (IsPrintable c) :=
  inferInstanceAs (Decidable (_ ∧ _))

/-- A character is written as an escape of one character, as an octal escape, or as itself. -/
theorem escapeAfter_cases (previous c : Char) :
    (∃ e, escapeAfter previous c = ['\\', e] ∧ octalDigit? e = none ∧ simpleEscape e = c ∧
      IsPrintable e ∧ e ∈ simpleEscapes) ∨
    (escapeAfter previous c = octalEscape c.toNat ∧ c.toNat < 0x80) ∨
    (escapeAfter previous c = [c] ∧ c ≠ '\\' ∧ c ≠ '"' ∧ IsPrintable c ∧
      ¬(c = '?' ∧ previous = '?')) := by
  rw [escapeAfter]
  split
  case isTrue h => exact Or.inl ⟨'"', rfl, by decide, h.symm, by decide, by decide⟩
  split
  case isTrue h => exact Or.inl ⟨'\\', rfl, by decide, h.symm, by decide, by decide⟩
  split
  case isTrue h => exact Or.inl ⟨'n', rfl, by decide, h.symm, by decide, by decide⟩
  split
  case isTrue h => exact Or.inl ⟨'r', rfl, by decide, h.symm, by decide, by decide⟩
  split
  case isTrue h => exact Or.inl ⟨'t', rfl, by decide, h.symm, by decide, by decide⟩
  split
  case isTrue h => exact Or.inl ⟨'?', rfl, by decide, h.1.symm, by decide, by decide⟩
  split
  case isTrue h => exact Or.inr (Or.inl ⟨rfl, by omega⟩)
  case isFalse hquote hbackslash _ _ _ hmark hcontrol =>
    rw [not_or, Nat.not_lt] at hcontrol
    exact Or.inr (Or.inr ⟨rfl, hbackslash, hquote, hcontrol, hmark⟩)

/-! ### Reading undoes writing -/

theorem octalDigit?_digitChar : ∀ d < 8, octalDigit? (Nat.digitChar d) = some d := by
  decide

/-- Three octal digits are read as one character, whatever follows. -/
theorem read_octalEscape {n : Nat} (hn : n < 512) (t : List Char) :
    read .plain (octalEscape n ++ t) = Char.ofNat n :: read .plain t := by
  have h₁ := octalDigit?_digitChar (n / 64 % 8) (Nat.mod_lt _ (by decide))
  have h₂ := octalDigit?_digitChar (n / 8 % 8) (Nat.mod_lt _ (by decide))
  have h₃ := octalDigit?_digitChar (n % 8) (Nat.mod_lt _ (by decide))
  -- three octal digits have room for every number below 512
  have hvalue : 8 * (8 * (n / 64 % 8) + n / 8 % 8) + n % 8 = n := by omega
  simp [octalEscape, read, h₁, h₂, h₃, hvalue]

/-- What is written for a character is read as that character. -/
theorem read_escapeAfter (previous c : Char) (t : List Char) :
    read .plain (escapeAfter previous c ++ t) = c :: read .plain t := by
  rcases escapeAfter_cases previous c with ⟨e, he, hdigit, rfl, -⟩ | ⟨he, hlt⟩ | ⟨he, hc, -⟩
  · rw [he, List.cons_append, List.singleton_append, read, if_pos rfl, read, hdigit]
  · rw [he, read_octalEscape (by omega), Char.ofNat_toNat]
  · rw [he, List.singleton_append, read, if_neg hc]

/-- **Reading undoes writing.** -/
theorem read_escapeFrom (previous : Char) (s : List Char) :
    read .plain (escapeFrom previous s) = s := by
  induction s generalizing previous with
  | nil => rfl
  | cons c s ih => rw [escapeFrom, read_escapeAfter, ih]

/-- Different texts have different string literals. -/
theorem stringLiteral_injective {s t : String} (h : stringLiteral s = stringLiteral t) : s = t := by
  have hquoted := List.cons.inj (String.ofList_inj.1 h)
  have hcontents := List.append_cancel_right hquoted.2
  rw [← String.toList_inj, ← read_escapeFrom '\x00' s.toList, hcontents, read_escapeFrom]

/-! ### The characters of a literal -/

theorem isPrintable_digitChar : ∀ d < 8, IsPrintable (Nat.digitChar d) := by
  decide

theorem isPrintable_of_mem_octalEscape {n : Nat} {c : Char} (h : c ∈ octalEscape n) :
    IsPrintable c := by
  simp only [octalEscape, List.mem_cons, List.not_mem_nil, or_false] at h
  rcases h with rfl | rfl | rfl | rfl
  · decide
  all_goals exact isPrintable_digitChar _ (Nat.mod_lt _ (by decide))

/-- Nothing is written with a control character. -/
theorem isPrintable_of_mem_escapeAfter {previous c d : Char} (h : d ∈ escapeAfter previous c) :
    IsPrintable d := by
  rcases escapeAfter_cases previous c with ⟨e, he, -, -, hprint, -⟩ | ⟨he, -⟩ |
    ⟨he, -, -, hprint, -⟩
  · rw [he] at h
    rcases List.mem_pair.1 h with rfl | rfl
    · decide
    · exact hprint
  · exact isPrintable_of_mem_octalEscape (he ▸ h)
  · rw [he] at h
    rwa [List.mem_singleton.1 h]

/-- A string literal has no control characters. -/
theorem isPrintable_of_mem_stringLiteral {s : String} {c : Char}
    (h : c ∈ (stringLiteral s).toList) : IsPrintable c := by
  have hcontents : ∀ (previous : Char) (cs : List Char), c ∈ escapeFrom previous cs →
      IsPrintable c := by
    intro previous cs
    induction cs generalizing previous with
    | nil => intro hc; exact absurd hc List.not_mem_nil
    | cons d cs ih =>
      intro hc
      rw [escapeFrom, List.mem_append] at hc
      exact hc.elim isPrintable_of_mem_escapeAfter (ih d)
  rw [stringLiteral, String.toList_ofList, List.cons_append, List.mem_cons, List.mem_append,
    List.mem_singleton] at h
  rcases h with rfl | h | rfl
  · decide
  · exact hcontents _ _ h
  · decide

end C

end JsonEmbed
