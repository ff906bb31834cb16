import JsonEmbed.Json.Fault

/-!
# Scanning JSON text

The pieces of JSON text below the level of values: blanks, keywords and strings. A string is first
read as bytes, escapes replaced, and these must then be UTF-8 as a whole; so a control character or
a bad escape is found before ill-formed bytes to its left.
-/

namespace JsonEmbed

namespace Scanner

/-- Space, tab, line feed and carriage return. -/
def isBlank (b : UInt8) : Bool :=
  b == 0x20 || b == 0x09 || b == 0x0a || b == 0x0d

/-- The text from its first byte that is not blank. -/
def skipBlank (s : Bytes) : Bytes :=
  s.dropWhile isBlank

/-- The rest of a keyword, byte by byte. -/
def keyword : Bytes → Bytes → Except Fault Bytes
  | [], s => .ok s
  | _ :: _, [] => Fault.at [] .endInValue
  | c :: cs, b :: s => if b = c then keyword cs s else Fault.at s .expectedKeyword

/-- The letters of a keyword after its first. -/
def ull : Bytes := [0x75, 0x6c, 0x6c]

/-- The letters of `true` after its first. -/
def rue : Bytes := [0x72, 0x75, 0x65]

/-- The letters of `false` after its first. -/
def alse : Bytes := [0x61, 0x6c, 0x73, 0x65]

/-- The byte that a one-letter escape stands for. -/
def simpleEscape? (e : UInt8) : Option UInt8 :=
  match e.toNat with
  | 0x22 => some 0x22
  | 0x5c => some 0x5c
  | 0x2f => some 0x2f
  | 0x62 => some 0x08
  | 0x66 => some 0x0c
  | 0x6e => some 0x0a
  | 0x72 => some 0x0d
  | 0x74 => some 0x09
  | _ => none

/-- The value of a hexadecimal digit. -/
def hexDigit? (b : UInt8) : Option Nat :=
  let n := b.toNat
  if 0x30 ≤ n ∧ n ≤ 0x39 then some (n - 0x30)
  else if 0x61 ≤ n ∧ n ≤ 0x66 then some (n - 0x61 + 10)
  else if 0x41 ≤ n ∧ n ≤ 0x46 then some (n - 0x41 + 10)
  else none

/-- The value of four hexadecimal digits. -/
def hexUnit? (a b c d : UInt8) : Option Nat := do
  let a ← hexDigit? a
  let b ← hexDigit? b
  let c ← hexDigit? c
  let d ← hexDigit? d
  return ((a * 16 + b) * 16 + c) * 16 + d

/-- Whether a 16-bit unit is the first of a surrogate pair. -/
def isLeading (unit : Nat) : Bool :=
  decide (0xd800 ≤ unit ∧ unit ≤ 0xdbff)

/-- Whether a 16-bit unit is the second of a surrogate pair. -/
def isTrailing (unit : Nat) : Bool :=
  decide (0xdc00 ≤ unit ∧ unit ≤ 0xdfff)

/-- The bytes of the character with the given code point. -/
def encodeCode (code : Nat) : Bytes :=
  ((Utf8.charOf? code).map String.utf8EncodeChar).getD []

/-- Puts bytes in front of those that a reader gives. -/
def prepend (bytes : Bytes) : ReadResult Bytes → ReadResult Bytes
  | .ok (tail, rest) => .ok (bytes ++ tail, rest)
  | .error e => .error e

/-- The bytes of a string, from after its opening quote to its closing one. An escape `\u` takes the
four bytes after it before it looks at them, and a leading surrogate needs a trailing one. -/
def stringBytes : Bytes → ReadResult Bytes
  | [] => Fault.at [] .endInString
  | b :: s =>
    if b = 0x22 then .ok ([], s)
    else if b = 0x5c then
      match s with
      | [] => Fault.at [] .endInString
      | e :: s =>
        match simpleEscape? e with
        | some x => prepend [x] (stringBytes s)
        | none =>
          if e = 0x75 then
            match s with
            | h₁ :: h₂ :: h₃ :: h₄ :: s =>
              match hexUnit? h₁ h₂ h₃ h₄ with
              | none => Fault.at s .invalidEscape
              | some unit =>
                if isTrailing unit then Fault.at s .loneSurrogate
                else if isLeading unit then
                  match s with
                  | [] => Fault.at [] .endInString
                  | x :: s =>
                    if x = 0x5c then
                      match s with
                      | [] => Fault.at [] .endInString
                      | y :: s =>
                        if y = 0x75 then
                          match s with
                          | l₁ :: l₂ :: l₃ :: l₄ :: s =>
                            match hexUnit? l₁ l₂ l₃ l₄ with
                            | none => Fault.at s .invalidEscape
                            | some low =>
                              if isTrailing low then
                                prepend
                                  (encodeCode ((unit - 0xd800) * 0x400 + (low - 0xdc00) + 0x10000))
                                  (stringBytes s)
                              else Fault.at s .loneSurrogate
                          | _ => Fault.at [] .endInString
                        else Fault.at s .endInHexEscape
                    else Fault.at s .endInHexEscape
                else prepend (encodeCode unit) (stringBytes s)
            | _ => Fault.at [] .endInString
          else Fault.at s .invalidEscape
    else if b < 0x20 then Fault.at s .controlCharacter
    else prepend [b] (stringBytes s)

/-- A string, from after its opening quote. Ill-formed bytes are reported as many bytes before the
end of the string as the decoded text has from them on. -/
def string (s : Bytes) : ReadResult String :=
  match stringBytes s with
  | .error e => .error e
  | .ok (bytes, rest) =>
    match Utf8.decode? bytes with
    | some text => .ok (text, rest)
    | none => .error ⟨.invalidCodePoint, rest.length + (bytes.length - Utf8.validLength bytes)⟩

end Scanner

end JsonEmbed
