import JsonEmbed.Proofs.Identifiers
import JsonEmbed.Proofs.Numerals
import JsonEmbed.Proofs.StringLiterals
import Mathlib.Data.List.Chain

/-!
# Reading a line of a program

A reader who only wants to know where string literals begin and end goes through a line with three
states: outside of literals, in one, and after a backslash in one. `C.scan` is this reader, and
`C.outside` is what it meets outside of literals.

A text made of plain characters leaves the reader where it was, and so does a string literal,
whatever it holds: every quote and every backslash in it comes after a backslash
(`scan_stringLiteral`). None of its contents is met outside (`outside_stringLiteral`).

Two pairs of neighbours change how a program is read before any literal is: two question marks,
which may begin a trigraph, and a backslash before a newline, which joins two lines. In the
contents of a literal neither stands (`isChain_stringLiteral`). For question marks the induction
needs to know what was written last and what it was written for: the character before in the text is
known to be a question mark whenever the last one written is.
-/

namespace JsonEmbed

namespace C

/-! ### Readers -/

/-- Where a reader is who looks for string literals. -/
inductive Scan where
  /-- Outside of literals. -/
  | code
  | literal
  /-- After a backslash in a literal. -/
  | escaped
  deriving DecidableEq

/-- Where the reader is after a character. -/
def Scan.next : Scan → Char → Scan
  | code, c => if c = '"' then literal else code
  | literal, c => if c = '"' then code else if c = '\\' then escaped else literal
  | escaped, _ => literal

/-- Where the reader is after a text. -/
def scan (s : Scan) (cs : List Char) : Scan :=
  cs.foldl Scan.next s

/-- The characters that the reader meets outside of literals, opening quotes included. -/
def outside : Scan → List Char → List Char
  | _, [] => []
  | .code, c :: cs => c :: outside (Scan.code.next c) cs
  | s, c :: cs => outside (s.next c) cs

theorem scan_append (s : Scan) (a b : List Char) : scan s (a ++ b) = scan (scan s a) b :=
  List.foldl_append

theorem outside_append (s : Scan) (a b : List Char) :
    outside s (a ++ b) = outside s a ++ outside (scan s a) b := by
  induction a generalizing s with
  | nil => rfl
  | cons c a ih => cases s <;> simp [outside, scan, ih]

/-! ### Plain characters -/

/-- A printable character of ASCII that means nothing in or around a string literal. -/
def IsPlain (c : Char) : Prop :=
  0x20 ≤ c.toNat ∧ c.toNat < 0x7f ∧ c ≠ '"' ∧ c ≠ '\\' ∧ c ≠ '?'

instance (c : Char) : Decidable (IsPlain c) :=
  inferInstanceAs (Decidable (_ ∧ _))

/-- A text of plain characters. -/
def Plain (s : List Char) : Prop :=
  ∀ c ∈ s, IsPlain c

instance (s : List Char) : Decidable (Plain s) :=
  List.decidableBAll IsPlain s

theorem Plain.append {a b : List Char} (ha : Plain a) (hb : Plain b) : Plain (a ++ b) :=
  List.forall_mem_append.2 ⟨ha, hb⟩

/-- Digits and letters are plain. -/
theorem isPlain_of_isAlphanum {c : Char} (h : c.isAlphanum = true) : IsPlain c := by
  have hrange : ((65 ≤ c.toNat ∧ c.toNat ≤ 90) ∨ (97 ≤ c.toNat ∧ c.toNat ≤ 122)) ∨
      (48 ≤ c.toNat ∧ c.toNat ≤ 57) := by
    refine (Bool.or_eq_true_iff.1 h).imp (fun halpha ↦ ?_) fun hdigit ↦ ?_
    · refine (Bool.or_eq_true_iff.1 halpha).imp (fun hupper ↦ ?_) fun hlower ↦ ?_
      · exact of_decide_eq_true hupper
      · exact (Bool.and_eq_true_iff.1 hlower).imp of_decide_eq_true of_decide_eq_true
    · exact (Bool.and_eq_true_iff.1 hdigit).imp of_decide_eq_true of_decide_eq_true
  have hne : ∀ d : Char, c.toNat ≠ d.toNat → c ≠ d := fun d hd h ↦ hd (h ▸ rfl)
  refine ⟨by omega, by omega, hne _ ?_, hne _ ?_, hne _ ?_⟩
  · show c.toNat ≠ 34
    omega
  · show c.toNat ≠ 92
    omega
  · show c.toNat ≠ 63
    omega

/-- Names are plain. -/
theorem IsName.plain {s : String} (h : IsName s) : Plain s.toList := by
  intro c hc
  rcases Bool.or_eq_true_iff.1 (h c hc) with halpha | hunderscore
  · exact isPlain_of_isAlphanum halpha
  · rw [beq_iff_eq.1 hunderscore]
    decide

/-- Numerals are plain. -/
theorem plain_of_isNumeral {s : List Char} (h : IsNumeral s) : Plain s := by
  intro c hc
  have hchar := h c hc
  simp only [isNumeralChar, Bool.or_eq_true, beq_iff_eq] at hchar
  rcases hchar with (((hdigit | rfl) | rfl) | rfl) | rfl
  · exact isPlain_of_isAlphanum (by simp [Char.isAlphanum, hdigit])
  all_goals decide

/-- Plain characters do not open a literal. -/
theorem scan_plain {s : List Char} (h : Plain s) : scan .code s = .code := by
  induction s with
  | nil => rfl
  | cons c s ih =>
    obtain ⟨hc, hs⟩ := List.forall_mem_cons.1 h
    rw [scan, List.foldl_cons, Scan.next, if_neg hc.2.2.1]
    exact ih hs

theorem outside_plain {s : List Char} (h : Plain s) : outside .code s = s := by
  induction s with
  | nil => rfl
  | cons c s ih =>
    obtain ⟨hc, hs⟩ := List.forall_mem_cons.1 h
    rw [outside, Scan.next, if_neg hc.2.2.1, ih hs]

/-! ### String literals -/

/-- No octal digit has a meaning of its own in a literal. -/
theorem digitChar_ne : ∀ d < 8, Nat.digitChar d ≠ '"' ∧ Nat.digitChar d ≠ '\\' ∧
    Nat.digitChar d ≠ '?' := by
  decide

/-- What is written for a character leaves the reader in the literal and is not met outside. -/
theorem scan_escapeAfter (previous c : Char) :
    scan .literal (escapeAfter previous c) = .literal ∧
      outside .literal (escapeAfter previous c) = [] := by
  rcases escapeAfter_cases previous c with ⟨e, he, -⟩ | ⟨he, -⟩ | ⟨he, hbackslash, hquote, -⟩
  · rw [he]
    exact ⟨rfl, rfl⟩
  · obtain ⟨hquote₂, hbackslash₂, -⟩ := digitChar_ne (c.toNat / 8 % 8) (Nat.mod_lt _ (by decide))
    obtain ⟨hquote₃, hbackslash₃, -⟩ := digitChar_ne (c.toNat % 8) (Nat.mod_lt _ (by decide))
    rw [he]
    simp [octalEscape, scan, outside, Scan.next, hquote₂, hbackslash₂, hquote₃, hbackslash₃]
  · rw [he]
    simp [scan, outside, Scan.next, hbackslash, hquote]

/-- The contents of a literal leave the reader in it and are not met outside. -/
theorem scan_escapeFrom (previous : Char) (s : List Char) :
    scan .literal (escapeFrom previous s) = .literal ∧
      outside .literal (escapeFrom previous s) = [] := by
  induction s generalizing previous with
  | nil => exact ⟨rfl, rfl⟩
  | cons c s ih =>
    obtain ⟨hscan, houtside⟩ := scan_escapeAfter previous c
    rw [escapeFrom, scan_append, outside_append, hscan, houtside, List.nil_append]
    exact ih c

/-- The characters of a string literal. -/
theorem toList_stringLiteral (s : String) :
    (stringLiteral s).toList = '"' :: (escapeFrom '\x00' s.toList ++ ['"']) := by
  rw [stringLiteral, String.toList_ofList]
  rfl

/-- **A string literal closes where it ends.** -/
theorem scan_stringLiteral (s : String) : scan .code (stringLiteral s).toList = .code := by
  have hopen : scan .code ['"'] = .literal := rfl
  rw [toList_stringLiteral, ← List.singleton_append, scan_append, hopen, scan_append,
    (scan_escapeFrom _ _).1]
  rfl

/-- Of a string literal only the opening quote is met outside. -/
theorem outside_stringLiteral (s : String) :
    outside .code (stringLiteral s).toList = ['"'] := by
  have hopen : scan .code ['"'] = .literal := rfl
  rw [toList_stringLiteral, ← List.singleton_append, outside_append, hopen, outside_append,
    (scan_escapeFrom _ _).1, (scan_escapeFrom _ _).2]
  rfl

/-! ### Neighbours -/

/-- Neighbours that leave the text as it is: not two question marks, and not a backslash before a
newline. -/
def Adjacent (c d : Char) : Prop :=
  ¬(c = '?' ∧ d = '?') ∧ ¬(c = '\\' ∧ d = '\n')

/-- Before a question mark and a newline only some characters may stand. -/
theorem adjacent_of_ne {c d : Char} (hmark : c ≠ '?' ∨ d ≠ '?') (hnewline : d ≠ '\n') :
    Adjacent c d :=
  ⟨not_and_or.2 hmark, fun h ↦ hnewline h.2⟩

/-- After a character that is no question mark and no backslash anything may follow. -/
theorem isChain_append_of_forall {a t : List Char} (ha : ∀ c ∈ a, c ≠ '?' ∧ c ≠ '\\')
    (ht : t.IsChain Adjacent) : (a ++ t).IsChain Adjacent := by
  induction a with
  | nil => exact ht
  | cons c a ih =>
    obtain ⟨⟨hmark, hbackslash⟩, hrest⟩ := List.forall_mem_cons.1 ha
    exact List.isChain_cons.2
      ⟨fun _ _ ↦ ⟨fun h ↦ hmark h.1, fun h ↦ hbackslash h.1⟩, ih hrest⟩

/-- Neighbours that would change a text do not stand in it. -/
theorem not_infix_of_isChain {c d : Char} (hcd : ¬Adjacent c d) {s : List Char}
    (h : s.IsChain Adjacent) : ¬[c, d] <:+: s := by
  rintro ⟨before, after, rfl⟩
  rw [List.append_assoc] at h
  exact hcd (List.isChain_append_cons_cons.1 h).2.1

/-- No printable character is a newline. -/
theorem IsPrintable.ne_newline {c : Char} (h : IsPrintable c) : c ≠ '\n' := by
  rintro rfl
  exact absurd h (by decide)

/-- The contents of a literal after the character written last, which is a question mark only if it
was written for one. -/
theorem isChain_escapeFrom {last previous : Char} (hlast : last = '?' → previous = '?')
    (s : List Char) {t : List Char} (ht : ('"' :: t).IsChain Adjacent) :
    (last :: (escapeFrom previous s ++ '"' :: t)).IsChain Adjacent := by
  induction s generalizing last previous with
  | nil => exact List.isChain_cons_cons.2 ⟨adjacent_of_ne (Or.inr (by decide)) (by decide), ht⟩
  | cons c s ih =>
    rw [escapeFrom, List.append_assoc]
    rcases escapeAfter_cases previous c with ⟨e, he, -, hdenotes, hprint, -⟩ | ⟨he, -⟩ |
      ⟨he, -, -, hprint, hmarks⟩
    · rw [he]
      refine List.isChain_cons_cons.2 ⟨adjacent_of_ne (Or.inr (by decide)) (by decide), ?_⟩
      refine List.isChain_cons_cons.2
        ⟨adjacent_of_ne (Or.inl (by decide)) hprint.ne_newline, ih fun hmark ↦ ?_⟩
      rw [← hdenotes, hmark]
      rfl
    · -- the last of the three digits is what the rest is written after
      have hdigit : ∀ n : Nat, Nat.digitChar (n % 8) ≠ '?' ∧ Nat.digitChar (n % 8) ≠ '\\' :=
        fun n ↦ (digitChar_ne _ (Nat.mod_lt _ (by decide))).2.symm
      have hrest := @ih (Nat.digitChar (c.toNat % 8)) c fun hmark ↦ absurd hmark (hdigit _).1
      have hdigits := isChain_append_of_forall
        (List.forall_mem_cons.2 ⟨hdigit (c.toNat / 64), List.forall_mem_singleton.2
          (hdigit (c.toNat / 8))⟩) hrest
      rw [he]
      refine List.isChain_cons_cons.2 ⟨adjacent_of_ne (Or.inr (by decide)) (by decide), ?_⟩
      refine List.isChain_cons_cons.2 ⟨adjacent_of_ne (Or.inl (by decide)) ?_, hdigits⟩
      exact (isPrintable_digitChar _ (Nat.mod_lt _ (by decide))).ne_newline
    · rw [he]
      refine List.isChain_cons_cons.2 ⟨adjacent_of_ne ?_ hprint.ne_newline, ih id⟩
      by_contra hboth
      obtain ⟨hlastMark, hmark⟩ := not_or.1 hboth
      exact hmarks ⟨not_not.1 hmark, hlast (not_not.1 hlastMark)⟩

/-- **No string literal holds a trigraph or joins lines**, if what follows it does not. -/
theorem isChain_stringLiteral (s : String) {t : List Char} (ht : t.IsChain Adjacent) :
    ((stringLiteral s).toList ++ t).IsChain Adjacent := by
  have hquote : ('"' :: t).IsChain Adjacent :=
    isChain_append_of_forall (List.forall_mem_singleton.2 (by decide)) ht
  rw [toList_stringLiteral, List.cons_append, List.append_assoc, List.singleton_append]
  exact isChain_escapeFrom (fun h ↦ absurd h (by decide)) s.toList hquote

end C

end JsonEmbed
