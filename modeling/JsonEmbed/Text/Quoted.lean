import JsonEmbed.Text.Printable

/-!
# Quoted texts

How a text is shown where a reader must see exactly what it holds: between quotes, with quotes and
backslashes escaped, the common controls by a letter, and every other character without a shape of
its own by its code point.
-/

namespace JsonEmbed

namespace Quoted

/-- A code point between braces. -/
def codePoint (c : Char) : List Char :=
  ['\\', 'u', '\x7b'] ++ Nat.toDigits 16 c.toNat ++ ['\x7d']

/-- How a character is shown. -/
def showChar (c : Char) : List Char :=
  if c = '\x00' then ['\\', '0']
  else if c = '\t' then ['\\', 't']
  else if c = '\r' then ['\\', 'r']
  else if c = '\n' then ['\\', 'n']
  else if c = '\\' then ['\\', '\\']
  else if c = '"' then ['\\', '"']
  else if Printable.isPrintable c then [c]
  else codePoint c

end Quoted

/-- A text between quotes. -/
def quoted (s : String) : String :=
  String.ofList ('"' :: s.toList.flatMap Quoted.showChar ++ ['"'])

end JsonEmbed
