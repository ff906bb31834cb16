/-!
# C string literals

`C.stringLiteral` writes a text as one string token. Quotes, backslashes and control characters are
escaped, the latter as three octal digits, so that a digit after them cannot be read as part of the
escape. A question mark after another is escaped too: `??` could begin a trigraph.
-/

namespace JsonEmbed

namespace C

/-- A backslash and three octal digits. -/
def octalEscape (n : Nat) : List Char :=
  ['\\', Nat.digitChar (n / 64 % 8), Nat.digitChar (n / 8 % 8), Nat.digitChar (n % 8)]

/-- How a character is written when `previous` is the character before it. -/
def escapeAfter (previous c : Char) : List Char :=
  if c = '"' then ['\\', '"']
  else if c = '\\' then ['\\', '\\']
  else if c = '\n' then ['\\', 'n']
  else if c = '\r' then ['\\', 'r']
  else if c = '\t' then ['\\', 't']
  else if c = '?' ∧ previous = '?' then ['\\', '?']
  else if c.toNat < 0x20 ∨ c.toNat = 0x7f then octalEscape c.toNat
  else [c]

/-- How a text is written when `previous` is the character before it. -/
def escapeFrom (previous : Char) : List Char → List Char
  | [] => []
  | c :: cs => escapeAfter previous c ++ escapeFrom c cs

/-- The string literal for a text. -/
def stringLiteral (s : String) : String :=
  String.ofList ('"' :: escapeFrom '\x00' s.toList ++ ['"'])

end C

end JsonEmbed
