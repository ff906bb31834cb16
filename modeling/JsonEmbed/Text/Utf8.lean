/-!
# UTF-8

A document is a list of bytes and a string is a list of characters; this module goes between the
two. `Utf8.encode` writes a string, `Utf8.scan` reads the longest well-formed beginning of a byte
list and says what is left, and `Utf8.decode?` accepts exactly the byte lists of which nothing is
left. A reader of damaged text needs `scan`: it reports a fault by how much text after it is lost.

A character is read from one, two, three or four bytes. Each of the four readers refuses what a
shorter form could have said, and none yields a surrogate, so a character has one encoding.
-/

namespace JsonEmbed

/-- The bytes of a document. -/
abbrev Bytes := List UInt8

namespace Utf8

/-- The bytes of a string. -/
def encode (s : String) : Bytes :=
  s.toList.flatMap String.utf8EncodeChar

/-- The character with a given code point, if it is one: surrogates and numbers above the last
plane are none. -/
def charOf? (code : Nat) : Option Char :=
  if h : code.isValidChar then some (Char.ofNatAux code h) else none

/-- The low six bits of a continuation byte `10xxxxxx`. -/
def continuation? (b : UInt8) : Option Nat :=
  if b.toNat / 64 = 2 then some (b.toNat % 64) else none

/-- The character that one byte below `0x80` stands for. -/
def oneByte? (a : UInt8) : Option Char :=
  if a.toNat < 0x80 then charOf? a.toNat else none

/-- The character of a lead byte `110xxxxx` and one continuation byte. -/
def twoBytes? (a b : UInt8) : Option Char := do
  guard (a.toNat / 32 = 6)
  let low ← continuation? b
  let code := a.toNat % 32 * 64 + low
  guard (0x80 ≤ code)
  charOf? code

/-- The character of a lead byte `1110xxxx` and two continuation bytes. -/
def threeBytes? (a b c : UInt8) : Option Char := do
  guard (a.toNat / 16 = 14)
  let mid ← continuation? b
  let low ← continuation? c
  let code := (a.toNat % 16 * 64 + mid) * 64 + low
  guard (0x800 ≤ code)
  charOf? code

/-- The character of a lead byte `11110xxx` and three continuation bytes. -/
def fourBytes? (a b c d : UInt8) : Option Char := do
  guard (a.toNat / 8 = 30)
  let high ← continuation? b
  let mid ← continuation? c
  let low ← continuation? d
  let code := ((a.toNat % 8 * 64 + high) * 64 + mid) * 64 + low
  guard (0x10000 ≤ code)
  charOf? code

/-- Puts a character in front of a scan. -/
def push (c : Char) (r : List Char × Bytes) : List Char × Bytes :=
  (c :: r.1, r.2)

/-- The characters of the longest well-formed beginning, and the bytes after it. -/
def scan : Bytes → List Char × Bytes
  | [] => ([], [])
  | a :: s₁ =>
    match oneByte? a with
    | some x => push x (scan s₁)
    | none =>
      match s₁ with
      | [] => ([], [a])
      | b :: s₂ =>
        match twoBytes? a b with
        | some x => push x (scan s₂)
        | none =>
          match s₂ with
          | [] => ([], [a, b])
          | c :: s₃ =>
            match threeBytes? a b c with
            | some x => push x (scan s₃)
            | none =>
              match s₃ with
              | [] => ([], [a, b, c])
              | d :: s₄ =>
                match fourBytes? a b c d with
                | some x => push x (scan s₄)
                | none => ([], a :: b :: c :: d :: s₄)

/-- The string that the bytes encode, if they are well formed. -/
def decode? (bytes : Bytes) : Option String :=
  match scan bytes with
  | (chars, []) => some (String.ofList chars)
  | _ => none

/-- The length in bytes of the well-formed beginning. -/
def validLength (bytes : Bytes) : Nat :=
  bytes.length - (scan bytes).2.length

end Utf8

end JsonEmbed
