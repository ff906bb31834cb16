import JsonEmbed.Proofs.Scanning

/-!
# String literals as tokens

A compiler takes a string literal in three steps. Trigraphs are replaced first, in the text of the
whole program. Then the literal is cut out as one token, from its opening quote to the first quote
that no backslash escapes (`C.token?`). At last the contents are read, as `C.read` does.

`IsContents` is the grammar of contents: plain characters, and backslashes that begin an escape
which C has. Contents of this form end at the first quote after them (`upToQuote?_append`), and what
is written for a text is of this form (`isContents_escapeFrom`). Since no two question marks in a
row are ever written, the first step finds nothing to replace, and the last one gives back the text.
-/

namespace JsonEmbed

namespace C

/-! ### What a compiler does -/

/-- The characters that stand for others after two question marks. -/
def trigraphs : List (Char × Char) :=
  [('=', '#'), ('(', '['), ('/', '\\'), (')', ']'), ('\x27', '^'), ('<', '\x7b'), ('!', '|'),
   ('>', '\x7d'), ('-', '~')]

/-- The text with its trigraphs replaced. -/
def replaceTrigraphs : List Char → List Char
  | '?' :: '?' :: c :: cs =>
    match trigraphs.lookup c with
    | some d => d :: replaceTrigraphs cs
    | none => '?' :: replaceTrigraphs ('?' :: c :: cs)
  | c :: cs => c :: replaceTrigraphs cs
  | [] => []

/-- The text up to the first quote that no backslash escapes, and the text after it. -/
def upToQuote? : List Char → Option (List Char × List Char)
  | [] => none
  | '"' :: cs => some ([], cs)
  | '\\' :: c :: cs => (upToQuote? cs).map fun (contents, rest) ↦ ('\\' :: c :: contents, rest)
  | c :: cs => (upToQuote? cs).map fun (contents, rest) ↦ (c :: contents, rest)

/-- The contents of the string literal at the front of a text, and the text after it. -/
def token? : List Char → Option (List Char × List Char)
  | '"' :: cs => upToQuote? cs
  | _ => none

/-- The contents of a string literal: characters other than a quote, a backslash and a newline,
escapes of one character, and escapes of up to three octal digits. -/
inductive IsContents : List Char → Prop
  | nil : IsContents []
  | plain {c : Char} {cs : List Char} : c ≠ '"' → c ≠ '\\' → c ≠ '\n' → IsContents cs →
      IsContents (c :: cs)
  | simple {c : Char} {cs : List Char} : c ∈ simpleEscapes → IsContents cs →
      IsContents ('\\' :: c :: cs)
  | octal {d : Char} {ds cs : List Char} : (∀ e ∈ d :: ds, (octalDigit? e).isSome = true) →
      ds.length < 3 → IsContents cs → IsContents ('\\' :: d :: (ds ++ cs))

/-! ### The end of a literal -/

/-- A character that is no quote and no backslash is passed over. -/
theorem upToQuote?_cons {c : Char} (hquote : c ≠ '"') (hbackslash : c ≠ '\\') (cs : List Char) :
    upToQuote? (c :: cs) = (upToQuote? cs).map fun (contents, rest) ↦ (c :: contents, rest) :=
  upToQuote?.eq_4 c cs hquote fun _ _ h ↦ absurd h hbackslash

/-- No octal digit is a quote or a backslash. -/
theorem ne_of_octalDigit? {d : Char} (h : (octalDigit? d).isSome = true) :
    d ≠ '"' ∧ d ≠ '\\' := by
  refine ⟨?_, ?_⟩
  all_goals
    rintro rfl
    exact absurd h (by decide)

/-- **Contents end at the quote after them.** -/
theorem upToQuote?_append {contents : List Char} (h : IsContents contents) (rest : List Char) :
    upToQuote? (contents ++ '"' :: rest) = some (contents, rest) := by
  induction h with
  | nil => rfl
  | plain hquote hbackslash _ _ ih =>
    rw [List.cons_append, upToQuote?_cons hquote hbackslash, ih]
    rfl
  | simple _ _ ih =>
    rw [List.cons_append, List.cons_append, upToQuote?, ih]
    rfl
  | @octal d ds cs hdigits _ _ ih =>
    -- the backslash takes the first digit with it, and the others are passed over
    have hothers : ∀ es : List Char, (∀ e ∈ es, (octalDigit? e).isSome = true) →
        upToQuote? (es ++ cs ++ '"' :: rest) = some (es ++ cs, rest) := by
      intro es hes
      induction es with
      | nil => exact ih
      | cons e es ihes =>
        obtain ⟨he, hes⟩ := List.forall_mem_cons.1 hes
        obtain ⟨hquote, hbackslash⟩ := ne_of_octalDigit? he
        rw [List.cons_append, List.cons_append, upToQuote?_cons hquote hbackslash, ihes hes]
        rfl
    rw [List.cons_append, List.cons_append, upToQuote?,
      hothers ds (List.forall_mem_cons.1 hdigits).2]
    rfl

/-- What is written for a character is an escape or a plain character. -/
theorem isContents_escapeAfter (previous c : Char) {cs : List Char} (h : IsContents cs) :
    IsContents (escapeAfter previous c ++ cs) := by
  rcases escapeAfter_cases previous c with ⟨e, he, -, -, -, hsimple⟩ | ⟨he, -⟩ |
    ⟨he, hbackslash, hquote, hprint, -⟩
  · rw [he]
    exact .simple hsimple h
  · have hdigit : ∀ n : Nat, (octalDigit? (Nat.digitChar (n % 8))).isSome = true := fun n ↦ by
      rw [octalDigit?_digitChar _ (Nat.mod_lt _ (by decide))]
      rfl
    have hdigits : ∀ e ∈ [Nat.digitChar (c.toNat / 64 % 8), Nat.digitChar (c.toNat / 8 % 8),
        Nat.digitChar (c.toNat % 8)], (octalDigit? e).isSome = true := by
      simp only [List.forall_mem_cons]
      exact ⟨hdigit _, hdigit _, hdigit _, List.forall_mem_nil _⟩
    rw [he]
    exact .octal hdigits (show 2 < 3 by decide) h
  · rw [he]
    exact .plain hquote hbackslash hprint.ne_newline h

theorem isContents_escapeFrom (previous : Char) (s : List Char) :
    IsContents (escapeFrom previous s) := by
  induction s generalizing previous with
  | nil => exact .nil
  | cons c s ih => exact isContents_escapeAfter previous c (ih c)

/-! ### Trigraphs -/

/-- A text without two question marks in a row has no trigraphs. -/
theorem replaceTrigraphs_of_isChain {s : List Char} (h : s.IsChain Adjacent) :
    replaceTrigraphs s = s := by
  induction s with
  | nil => rfl
  | cons c s ih =>
    rw [replaceTrigraphs.eq_2, ih h.tail]
    rintro d t rfl rfl
    exact (List.isChain_cons_cons.1 h).1.1 ⟨rfl, rfl⟩

example : replaceTrigraphs "what??/n??".toList = "what\\n??".toList := by decide

/-! ### Literals read back -/

/-- **A string literal is one token and denotes its text.** It is contents between two quotes, of
which the second one is the first that no backslash escapes, whatever follows; it holds no control
character and no two question marks in a row; and what its contents denote, after trigraphs have
been replaced, is the text. So different texts have different literals. -/
theorem token?_stringLiteral :
    (∀ s : String, ∃ contents, (stringLiteral s).toList = '"' :: (contents ++ ['"']) ∧
      IsContents contents ∧
      (∀ rest, token? ((stringLiteral s).toList ++ rest) = some (contents, rest)) ∧
      (∀ c ∈ (stringLiteral s).toList, IsPrintable c) ∧
      ¬['?', '?'] <:+: (stringLiteral s).toList ∧
      replaceTrigraphs (stringLiteral s).toList = (stringLiteral s).toList ∧
      String.ofList (read .plain (replaceTrigraphs contents)) = s) ∧
    Function.Injective stringLiteral := by
  refine ⟨fun s ↦ ?_, fun s t ↦ stringLiteral_injective⟩
  have hcontents := isContents_escapeFrom '\x00' s.toList
  have hchain : (stringLiteral s).toList.IsChain Adjacent := by
    simpa using isChain_stringLiteral s List.isChain_nil
  have hinner : (escapeFrom '\x00' s.toList).IsChain Adjacent := by
    rw [toList_stringLiteral] at hchain
    exact hchain.tail.left_of_append
  refine ⟨escapeFrom '\x00' s.toList, toList_stringLiteral s, hcontents, fun rest ↦ ?_,
    fun c hc ↦ isPrintable_of_mem_stringLiteral hc,
    not_infix_of_isChain (fun h ↦ h.1 ⟨rfl, rfl⟩) hchain, replaceTrigraphs_of_isChain hchain, ?_⟩
  · rw [toList_stringLiteral, List.cons_append, List.append_assoc, token?]
    exact upToQuote?_append hcontents rest
  · rw [replaceTrigraphs_of_isChain hinner, read_escapeFrom, String.ofList_toList]

end C

end JsonEmbed
