import JsonEmbed.Json.Scanner
import JsonEmbed.Proofs.Decoding

/-!
# The texts of a string

Which texts a string has, and that reading finds exactly these. Inside the quotes a character stands
for itself, in its UTF-8 bytes, or is escaped: by a letter, by its code in four hexadecimal digits,
or by the two halves of its code when four digits are too few (`Scanner.Escape`,
`Scanner.Spells`).

Reading goes byte by byte and decodes only at the end, so it takes a character that stands for
itself in several steps, and nothing in these steps says that an escape does not stand between them.
The bytes do: what an escape gives begins with a byte that begins a character, and the bytes after
the first of a character do not (`Utf8.exists_utf8EncodeChar_eq_cons`).
-/

namespace JsonEmbed

namespace Scanner

/-! ### The steps of reading a string -/

section Steps

variable {b : UInt8} (s : Bytes)

/-- A byte that stands for itself inside a string. -/
def IsPlain (b : UInt8) : Prop :=
  0x20 ≤ b.toNat ∧ b.toNat ≠ 0x22 ∧ b.toNat ≠ 0x5c

theorem stringBytes_plain (h : IsPlain b) :
    stringBytes (b :: s) = prepend [b] (stringBytes s) := by
  obtain ⟨hcontrol, hquote, hbackslash⟩ := h
  have hne : ∀ c : UInt8, b.toNat ≠ c.toNat → b ≠ c := fun c h hbc ↦ h (hbc ▸ rfl)
  have hge : ¬b < 0x20 := Nat.not_lt.2 hcontrol
  rw [stringBytes.eq_def]
  simp only [if_neg (hne 0x22 hquote), if_neg (hne 0x5c hbackslash), if_neg hge]

theorem prepend_append (as bs : Bytes) (r : ReadResult Bytes) :
    prepend (as ++ bs) r = prepend as (prepend bs r) := by
  cases r with
  | error e => rfl
  | ok tail => exact congrArg (fun bytes ↦ Except.ok (bytes, tail.2)) (List.append_assoc _ _ _)

theorem stringBytes_append {bs : Bytes} (h : ∀ b ∈ bs, IsPlain b) :
    stringBytes (bs ++ s) = prepend bs (stringBytes s) := by
  induction bs with
  | nil => cases hs : stringBytes s <;> simp [prepend, hs]
  | cons b bs ih =>
    obtain ⟨hb, hbs⟩ := List.forall_mem_cons.1 h
    rw [List.cons_append, stringBytes_plain _ hb, ih hbs, ← prepend_append]
    rfl

theorem stringBytes_escape {e x : UInt8} (h : simpleEscape? e = some x) :
    stringBytes (0x5c :: e :: s) = prepend [x] (stringBytes s) := by
  rw [stringBytes.eq_def]
  simp [h]

theorem stringBytes_unit {a b c d : UInt8} {unit : Nat} (h : hexUnit? a b c d = some unit)
    (hunit : unit.isValidChar) :
    stringBytes (0x5c :: 0x75 :: a :: b :: c :: d :: s) =
      prepend (encodeCode unit) (stringBytes s) := by
  have hunit : unit < 0xd800 ∨ 0xdfff < unit ∧ unit < 0x110000 := hunit
  have hleading : isLeading unit = false := decide_eq_false (by omega)
  have htrailing : isTrailing unit = false := decide_eq_false (by omega)
  rw [stringBytes.eq_def]
  simp [h, hleading, htrailing, show simpleEscape? 0x75 = none from rfl]

theorem stringBytes_quote : stringBytes (0x22 :: s) = .ok ([], s) := by
  rw [stringBytes.eq_def]
  simp

end Steps

/-! ### One character -/

theorem encodeCode_toNat (c : Char) : encodeCode c.toNat = String.utf8EncodeChar c := by
  rw [encodeCode, Utf8.charOf?_toNat]
  rfl

/-- The bytes of a character that stands for itself stand for themselves. -/
theorem isPlain_of_mem_utf8EncodeChar {c : Char} (hcontrol : 0x20 ≤ c.toNat) (hquote : c ≠ '"')
    (hbackslash : c ≠ '\\') : ∀ b ∈ String.utf8EncodeChar c, IsPlain b := by
  rcases Nat.lt_or_ge c.toNat 0x80 with hascii | hbeyond
  · have hbyte : (UInt8.ofNat c.toNat).toNat = c.toNat := Utf8.toNat_ofNat (by omega)
    have hne : ∀ {d : Char}, c ≠ d → c.toNat ≠ d.toNat := fun hcd h ↦ hcd (Char.toNat_inj.1 h)
    rw [Utf8.utf8EncodeChar_of_lt hascii]
    refine List.forall_mem_singleton.2 ⟨?_, ?_, ?_⟩ <;> rw [hbyte]
    · exact hcontrol
    · exact hne hquote
    · exact hne hbackslash
  · intro b hb
    have hb := Utf8.le_of_mem_utf8EncodeChar hbeyond b hb
    exact ⟨by omega, by omega, by omega⟩

/-! ### Texts -/

/-- The escaped forms of a character, backslash included. -/
inductive Escape : Bytes → Char → Prop where
  | letter {e x : UInt8} {c : Char} : simpleEscape? e = some x → c.toNat = x.toNat →
      Escape [0x5c, e] c
  | unit {h₁ h₂ h₃ h₄ : UInt8} {c : Char} : hexUnit? h₁ h₂ h₃ h₄ = some c.toNat →
      Escape [0x5c, 0x75, h₁, h₂, h₃, h₄] c
  | pair {h₁ h₂ h₃ h₄ l₁ l₂ l₃ l₄ : UInt8} {high low : Nat} {c : Char} :
      hexUnit? h₁ h₂ h₃ h₄ = some high → hexUnit? l₁ l₂ l₃ l₄ = some low →
      isLeading high → isTrailing low →
      c.toNat = (high - 0xd800) * 0x400 + (low - 0xdc00) + 0x10000 →
      Escape [0x5c, 0x75, h₁, h₂, h₃, h₄, 0x5c, 0x75, l₁, l₂, l₃, l₄] c

/-- A character that may stand for itself inside a string. -/
def StandsForItself (c : Char) : Prop :=
  0x20 ≤ c.toNat ∧ c ≠ '"' ∧ c ≠ '\\'

/-- `Spells s cs r`: the text `s`, from after an opening quote, spells the characters `cs` up to
the closing quote, and `r` is left. -/
inductive Spells : Bytes → List Char → Bytes → Prop where
  | close {r : Bytes} : Spells (0x22 :: r) [] r
  | plain {c : Char} {cs : List Char} {s r : Bytes} : StandsForItself c → Spells s cs r →
      Spells (String.utf8EncodeChar c ++ s) (c :: cs) r
  | escape {e : Bytes} {c : Char} {cs : List Char} {s r : Bytes} : Escape e c → Spells s cs r →
      Spells (e ++ s) (c :: cs) r

/-- `StringText text s r`: the text `s` begins with a string of the given characters, between
quotes, and `r` is left. -/
def StringText (text : String) (s r : Bytes) : Prop :=
  ∃ body, s = 0x22 :: body ∧ Spells body text.toList r

/-! ### What an escape gives -/

theorem simpleEscape?_lt {e x : UInt8} (h : simpleEscape? e = some x) : x.toNat < 0x80 := by
  rw [simpleEscape?] at h
  split at h <;> cases h <;> decide

theorem hexDigit?_lt {b : UInt8} {n : Nat} (h : hexDigit? b = some n) : n < 16 := by
  simp only [hexDigit?] at h
  split at h
  · cases h
    omega
  split at h
  · cases h
    omega
  split at h
  · cases h
    omega
  · exact absurd h (by simp)

theorem hexUnit?_lt {a b c d : UInt8} {n : Nat} (h : hexUnit? a b c d = some n) : n < 0x10000 := by
  simp only [hexUnit?, Option.bind_eq_bind, Option.bind_eq_some_iff, Option.pure_def,
    Option.some.injEq] at h
  obtain ⟨p, hp, q, hq, u, hu, v, hv, rfl⟩ := h
  have := hexDigit?_lt hp
  have := hexDigit?_lt hq
  have := hexDigit?_lt hu
  have := hexDigit?_lt hv
  omega

/-- What a code gives is a character. -/
theorem exists_encodeCode_eq {n : Nat} (h : n.isValidChar) :
    ∃ c : Char, c.toNat = n ∧ encodeCode n = String.utf8EncodeChar c :=
  ⟨Char.ofNatAux n h, rfl, encodeCode_toNat (Char.ofNatAux n h)⟩

/-- A byte below `0x80` is a character. -/
theorem exists_utf8EncodeChar_eq {b : UInt8} (h : b.toNat < 0x80) :
    ∃ c : Char, c.toNat = b.toNat ∧ String.utf8EncodeChar c = [b] := by
  obtain ⟨c, hc, -⟩ := exists_encodeCode_eq (n := b.toNat) (.inl (by omega))
  refine ⟨c, hc, ?_⟩
  rw [Utf8.utf8EncodeChar_of_lt (hc ▸ h), hc, UInt8.ofNat_toNat]

section

variable (s : Bytes)

theorem stringBytes_pair {h₁ h₂ h₃ h₄ l₁ l₂ l₃ l₄ : UInt8} {high low : Nat}
    (hhigh : hexUnit? h₁ h₂ h₃ h₄ = some high) (hlow : hexUnit? l₁ l₂ l₃ l₄ = some low)
    (hleading : isLeading high) (htrailing : isTrailing low) :
    stringBytes (0x5c :: 0x75 :: h₁ :: h₂ :: h₃ :: h₄ :: 0x5c :: 0x75 :: l₁ :: l₂ :: l₃ :: l₄ ::
      s) = prepend (encodeCode ((high - 0xd800) * 0x400 + (low - 0xdc00) + 0x10000))
        (stringBytes s) := by
  have hno : isTrailing high = false := by
    simp only [isLeading, isTrailing, decide_eq_true_eq, decide_eq_false_iff_not] at *
    omega
  rw [stringBytes.eq_def]
  simp [hhigh, hlow, hleading, htrailing, hno, show simpleEscape? 0x75 = none from rfl]

/-- An escape is read as the bytes of its character. -/
theorem stringBytes_of_escape {e : Bytes} {c : Char} (h : Escape e c) :
    stringBytes (e ++ s) = prepend (String.utf8EncodeChar c) (stringBytes s) := by
  cases h with
  | letter hletter hc =>
    rw [Utf8.utf8EncodeChar_of_lt (hc ▸ simpleEscape?_lt hletter), hc, UInt8.ofNat_toNat]
    exact stringBytes_escape s hletter
  | unit hunit =>
    rw [← encodeCode_toNat c]
    exact stringBytes_unit s hunit c.valid
  | pair hhigh hlow hleading htrailing hc =>
    rw [← encodeCode_toNat c, hc]
    exact stringBytes_pair s hhigh hlow hleading htrailing

end

/-! ### What one step has read -/

theorem prepend_eq_ok_iff {bs raw r : Bytes} {result : ReadResult Bytes} :
    prepend bs result = .ok (raw, r) ↔ ∃ tail, result = .ok (tail, r) ∧ raw = bs ++ tail := by
  cases result with
  | error f => simp [prepend]
  | ok tail =>
    obtain ⟨tail, r'⟩ := tail
    simp only [prepend, Except.ok.injEq, Prod.mk.injEq]
    constructor
    · rintro ⟨rfl, rfl⟩
      exact ⟨tail, ⟨rfl, rfl⟩, rfl⟩
    · rintro ⟨_, ⟨rfl, rfl⟩, rfl⟩
      exact ⟨rfl, rfl⟩

/-- A successful reading begins with the closing quote, with a byte that stands for itself, or with
an escape. -/
theorem stringBytes_cases {s raw r : Bytes} (h : stringBytes s = .ok (raw, r)) :
    (s = 0x22 :: r ∧ raw = []) ∨
    (∃ b t tail, IsPlain b ∧ s = b :: t ∧ raw = b :: tail ∧ stringBytes t = .ok (tail, r)) ∨
    (∃ e c t tail, Escape e c ∧ s = e ++ t ∧ raw = String.utf8EncodeChar c ++ tail ∧
      stringBytes t = .ok (tail, r)) := by
  revert h
  fun_cases stringBytes s with
  | case2 t =>
    intro h
    obtain ⟨rfl, rfl⟩ : [] = raw ∧ t = r := by simpa using h
    exact .inl ⟨rfl, rfl⟩
  | case4 e t x hletter =>
    intro h
    obtain ⟨tail, ht, rfl⟩ := prepend_eq_ok_iff.1 h
    obtain ⟨c, hc, hbytes⟩ := exists_utf8EncodeChar_eq (simpleEscape?_lt hletter)
    exact .inr (.inr ⟨_, c, t, tail, .letter hletter hc, rfl, hbytes ▸ rfl, ht⟩)
  | case10 h₁ h₂ h₃ h₄ high hhigh _ hleading l₁ l₂ l₃ l₄ t low hlow htrailing =>
    intro h
    obtain ⟨tail, ht, hraw⟩ := prepend_eq_ok_iff.1 h
    have hvalid : ((high - 0xd800) * 0x400 + (low - 0xdc00) + 0x10000).isValidChar := by
      simp only [isLeading, isTrailing, decide_eq_true_eq] at hleading htrailing
      rw [Nat.isValidChar]
      omega
    obtain ⟨c, hc, hbytes⟩ := exists_encodeCode_eq hvalid
    rw [hbytes] at hraw
    exact .inr (.inr ⟨_, c, t, tail, .pair hhigh hlow hleading htrailing hc, rfl, hraw, ht⟩)
  | case15 h₁ h₂ h₃ h₄ t unit hunit htrailing hleading =>
    intro h
    obtain ⟨tail, ht, rfl⟩ := prepend_eq_ok_iff.1 h
    have hvalid : unit.isValidChar := by
      have hmax := hexUnit?_lt hunit
      simp only [isLeading, isTrailing, decide_eq_true_eq] at hleading htrailing
      rw [Nat.isValidChar]
      omega
    obtain ⟨c, rfl, hbytes⟩ := exists_encodeCode_eq hvalid
    exact .inr (.inr ⟨_, c, t, tail, .unit hunit, rfl, hbytes ▸ rfl, ht⟩)
  | case19 b t hquote hbackslash hcontrol =>
    intro h
    obtain ⟨tail, ht, rfl⟩ := prepend_eq_ok_iff.1 h
    refine .inr (.inl ⟨b, t, tail, ⟨Nat.not_lt.1 hcontrol, ?_, ?_⟩, rfl, rfl, ht⟩)
    · exact fun h ↦ hquote (UInt8.toNat_inj.1 h)
    · exact fun h ↦ hbackslash (UInt8.toNat_inj.1 h)
  | _ => exact fun h ↦ nomatch h

/-- Bytes that begin no character were there before reading. -/
theorem stringBytes_continuation {more : Bytes} (hmore : ∀ b ∈ more, Utf8.IsContinuation b)
    {s tail r : Bytes} (h : stringBytes s = .ok (more ++ tail, r)) :
    ∃ t, s = more ++ t ∧ stringBytes t = .ok (tail, r) := by
  induction more generalizing s with
  | nil => exact ⟨s, rfl, h⟩
  | cons b more ih =>
    obtain ⟨hb, hmore⟩ := List.forall_mem_cons.1 hmore
    rcases stringBytes_cases h with ⟨-, hraw⟩ | ⟨b', t, raw, -, rfl, hraw, ht⟩ |
      ⟨e, c, t, raw, -, -, hraw, -⟩
    · cases hraw
    · obtain ⟨rfl, rfl⟩ := List.cons.inj hraw
      obtain ⟨u, rfl, hu⟩ := ih hmore ht
      exact ⟨u, rfl, hu⟩
    · obtain ⟨b', more', hbytes, hb', -⟩ := Utf8.exists_utf8EncodeChar_eq_cons c
      rw [hbytes] at hraw
      exact absurd ((List.cons.inj hraw).1 ▸ hb) hb'

/-! ### Strings -/

/-- A character whose first byte stands for itself does. -/
theorem standsForItself_of_isPlain {c : Char} {b : UInt8} {more : Bytes}
    (hbytes : String.utf8EncodeChar c = b :: more) (hb : IsPlain b) : StandsForItself c := by
  rcases Nat.lt_or_ge c.toNat 0x80 with hascii | hbeyond
  · rw [Utf8.utf8EncodeChar_of_lt hascii] at hbytes
    obtain ⟨rfl, -⟩ := List.cons.inj hbytes
    obtain ⟨hcontrol, hquote, hbackslash⟩ := hb
    rw [Utf8.toNat_ofNat (by omega)] at hcontrol hquote hbackslash
    exact ⟨hcontrol, fun h ↦ hquote (h ▸ rfl), fun h ↦ hbackslash (h ▸ rfl)⟩
  · refine ⟨by omega, fun h ↦ ?_, fun h ↦ ?_⟩ <;> subst h <;> exact absurd hbeyond (by decide)

theorem stringBytes_of_spells {s r : Bytes} {cs : List Char} (h : Spells s cs r) :
    stringBytes s = .ok (Utf8.bytes cs, r) := by
  induction h with
  | close => exact stringBytes_quote _
  | plain hc _ ih =>
    obtain ⟨hcontrol, hquote, hbackslash⟩ := hc
    rw [stringBytes_append _ (isPlain_of_mem_utf8EncodeChar hcontrol hquote hbackslash), ih]
    rfl
  | escape he _ ih =>
    rw [stringBytes_of_escape _ he, ih]
    rfl

theorem spells_of_stringBytes {s r : Bytes} {cs : List Char}
    (h : stringBytes s = .ok (Utf8.bytes cs, r)) : Spells s cs r := by
  induction cs generalizing s with
  | nil =>
    rcases stringBytes_cases h with ⟨rfl, -⟩ | ⟨b, t, tail, -, -, hraw, -⟩ |
      ⟨e, c, t, tail, -, -, hraw, -⟩
    · exact .close
    · cases hraw
    · obtain ⟨b, more, hbytes, -, -⟩ := Utf8.exists_utf8EncodeChar_eq_cons c
      rw [hbytes] at hraw
      cases hraw
  | cons c cs ih =>
    rw [Utf8.bytes_cons] at h
    obtain ⟨b, more, hbytes, -, hmore⟩ := Utf8.exists_utf8EncodeChar_eq_cons c
    rcases stringBytes_cases h with ⟨-, hraw⟩ | ⟨b', t, tail, hb, rfl, hraw, ht⟩ |
      ⟨e, d, t, tail, he, rfl, hraw, ht⟩
    · rw [hbytes] at hraw
      cases hraw
    · -- The first byte of `c` stands for itself, and the others were not made by an escape.
      rw [hbytes] at hraw
      obtain ⟨rfl, rfl⟩ := List.cons.inj hraw
      obtain ⟨u, rfl, hu⟩ := stringBytes_continuation hmore ht
      have hplain := Spells.plain (standsForItself_of_isPlain hbytes hb) (ih hu)
      rwa [hbytes] at hplain
    · obtain ⟨rfl, rfl⟩ := Utf8.utf8EncodeChar_append_inj hraw
      exact .escape he (ih ht)

/-- **Reading a string finds exactly its texts.** -/
theorem string_eq_ok_iff {s r : Bytes} {text : String} :
    Scanner.string s = .ok (text, r) ↔ Spells s text.toList r := by
  constructor
  · intro h
    rw [Scanner.string] at h
    split at h
    · cases h
    next raw r' hraw =>
    split at h
    on_goal 2 => cases h
    next text' htext =>
    obtain ⟨rfl, rfl⟩ : text' = text ∧ r' = r := by simpa using h
    rw [Utf8.decode?_eq_some_iff.1 htext] at hraw
    exact spells_of_stringBytes hraw
  · intro h
    rw [Scanner.string, stringBytes_of_spells h, ← Utf8.encode_eq]
    simp only [Utf8.decode?_encode]

theorem stringText_iff {text : String} {s r : Bytes} :
    StringText text s r ↔ ∃ body, s = 0x22 :: body ∧ Scanner.string body = .ok (text, r) := by
  simp only [StringText, string_eq_ok_iff]

/-- A text begins with at most one string. -/
theorem StringText.unique {s r r' : Bytes} {text text' : String} (h : StringText text s r)
    (h' : StringText text' s r') : text = text' ∧ r = r' := by
  obtain ⟨body, rfl, hread⟩ := stringText_iff.1 h
  obtain ⟨body', hbody, hread'⟩ := stringText_iff.1 h'
  obtain rfl := (List.cons.inj hbody).2
  simpa using hread.symm.trans hread'

end Scanner

end JsonEmbed
