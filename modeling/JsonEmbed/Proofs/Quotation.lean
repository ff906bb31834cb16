import JsonEmbed.Json.Writer
import JsonEmbed.Proofs.StringTexts
import JsonEmbed.Query.Fragment.Value

/-!
# Quoted strings

Strings are quoted in two ways, for values and for the results of queries, which differ in the
control characters that have a letter of their own. In both what is written for a character is the
character itself or one of its escapes (`Scanner.Writes`), and this is all that matters: a string
quoted in such a way is a text of the string (`Scanner.stringText_flatMap`), so it is read back.
-/

namespace JsonEmbed

namespace Scanner

/-- `Writes w c`: inside a string, `w` is the character `c` itself or escapes it. -/
def Writes (w : List Char) (c : Char) : Prop :=
  w = [c] ∧ StandsForItself c ∨ Escape (Utf8.bytes w) c

theorem Spells.cons_of_writes {s r : Bytes} {cs w : List Char} {c : Char} (h : Spells s cs r)
    (hw : Writes w c) : Spells (Utf8.bytes w ++ s) (c :: cs) r := by
  rcases hw with ⟨rfl, hc⟩ | he
  · rw [Utf8.bytes, List.flatMap_singleton]
    exact .plain hc h
  · exact .escape he h

/-- **A quoted string is a text of the string**, whichever way its characters are written in. -/
theorem stringText_flatMap {write : Char → List Char} (h : ∀ c, Writes (write c) c)
    (text : String) (s : Bytes) :
    StringText text
      (Utf8.encode (String.ofList ('"' :: text.toList.flatMap write ++ ['"'])) ++ s) s := by
  have hspells : ∀ cs : List Char,
      Spells (Utf8.bytes (cs.flatMap write) ++ 0x22 :: s) cs s := by
    intro cs
    induction cs with
    | nil => exact .close
    | cons c cs ih =>
      rw [List.flatMap_cons, Utf8.bytes_append, List.append_assoc]
      exact ih.cons_of_writes (h c)
  refine ⟨Utf8.bytes (text.toList.flatMap write) ++ 0x22 :: s, ?_, hspells _⟩
  rw [Utf8.encode_ofList, List.cons_append, Utf8.bytes_cons, Utf8.bytes_append]
  simp only [List.append_assoc]
  rfl

/-! ### What is written for a character -/

/-- The hexadecimal digits of a control character stand for it. -/
theorem hexUnit?_hexDigit : ∀ n < 0x20,
    hexUnit? 0x30 0x30 (UInt8.ofNat (Json.hexDigit (n / 16)).toNat)
      (UInt8.ofNat (Json.hexDigit (n % 16)).toNat) = some n := by
  decide

theorem hexDigit_lt : ∀ n < 16, (Json.hexDigit n).toNat < 0x80 := by
  decide

/-- A control character may be written as its code. -/
theorem writes_code {c : Char} (h : c.toNat < 0x20) :
    Writes ['\\', 'u', '0', '0', Json.hexDigit (c.toNat / 16), Json.hexDigit (c.toNat % 16)] c := by
  have hhigh := hexDigit_lt (c.toNat / 16) (by omega)
  have hlow := hexDigit_lt (c.toNat % 16) (by omega)
  simp only [Writes, Utf8.bytes, List.flatMap_cons, List.flatMap_nil,
    Utf8.utf8EncodeChar_of_lt hhigh, Utf8.utf8EncodeChar_of_lt hlow]
  exact .inr (.unit (hexUnit?_hexDigit _ h))

theorem writes_escapeChar (c : Char) : Writes (Json.escapeChar c) c := by
  have hletter : ∀ e x : UInt8, simpleEscape? e = some x → c.toNat = x.toNat →
      Escape [0x5c, e] c := fun e x ↦ .letter
  rw [Json.escapeChar]
  split
  · next hc => exact .inr (hletter 0x22 0x22 rfl (by rw [hc]; rfl))
  split
  · next hc => exact .inr (hletter 0x5c 0x5c rfl (by rw [hc]; rfl))
  split
  · next hc => exact .inr (hletter 0x62 0x08 rfl hc)
  split
  · next hc => exact .inr (hletter 0x66 0x0c rfl hc)
  split
  · next hc => exact .inr (hletter 0x6e 0x0a rfl (by rw [hc]; rfl))
  split
  · next hc => exact .inr (hletter 0x72 0x0d rfl (by rw [hc]; rfl))
  split
  · next hc => exact .inr (hletter 0x74 0x09 rfl (by rw [hc]; rfl))
  split
  · next hcontrol => exact writes_code hcontrol
  · next hquote hbackslash _ _ _ _ _ hcontrol =>
    exact .inl ⟨rfl, Nat.not_lt.1 hcontrol, hquote, hbackslash⟩

open Query (Value)

theorem valueEscapeChar_eq {c : Char} (hbackspace : c.toNat ≠ 0x08) (hfeed : c.toNat ≠ 0x0c) :
    Value.escapeChar c = Json.escapeChar c := by
  simp only [Value.escapeChar, Json.escapeChar, if_neg hbackspace, if_neg hfeed]

theorem writes_valueEscapeChar (c : Char) : Writes (Value.escapeChar c) c := by
  by_cases hbackspace : c.toNat = 0x08
  · obtain rfl : c = '\x08' := Char.toNat_inj.1 hbackspace
    exact writes_code (by decide)
  by_cases hfeed : c.toNat = 0x0c
  · obtain rfl : c = '\x0c' := Char.toNat_inj.1 hfeed
    exact writes_code (by decide)
  rw [valueEscapeChar_eq hbackspace hfeed]
  exact writes_escapeChar c

/-! ### Both ways of quoting -/

theorem stringText_quote (text : String) (s : Bytes) :
    StringText text (Utf8.encode (Json.quote text) ++ s) s :=
  stringText_flatMap writes_escapeChar text s

/-- **A string in the result of a query is read back.** -/
theorem string_quote (text : String) (s : Bytes) :
    ∃ body, Utf8.encode (Value.quote text) ++ s = 0x22 :: body ∧
      Scanner.string body = .ok (text, s) :=
  stringText_iff.1 (stringText_flatMap writes_valueEscapeChar text s)

end Scanner

end JsonEmbed
