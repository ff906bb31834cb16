import JsonEmbed.Json.Basic
import JsonEmbed.Number.Format

/-!
# Writing JSON text

Two layouts of a value: `Json.compact` without any blank, and `Json.pretty` with one element or
member to a line, indented by two spaces a level. Strings escape the quote, the backslash and the
control characters, and nothing else.
-/

namespace JsonEmbed

/-- The text of a number in a document. -/
def Number.text : Number → String
  | integer i => decimalText i
  | double x => FloatFormat.document.text x

namespace Json

/-- A hexadecimal digit in lower case. -/
def hexDigit (n : Nat) : Char :=
  Nat.digitChar n

/-- How a character is written inside a string. -/
def escapeChar (c : Char) : List Char :=
  if c = '"' then ['\\', '"']
  else if c = '\\' then ['\\', '\\']
  else if c.toNat = 0x08 then ['\\', 'b']
  else if c.toNat = 0x0c then ['\\', 'f']
  else if c = '\n' then ['\\', 'n']
  else if c = '\r' then ['\\', 'r']
  else if c = '\t' then ['\\', 't']
  else if c.toNat < 0x20 then
    ['\\', 'u', '0', '0', hexDigit (c.toNat / 16), hexDigit (c.toNat % 16)]
  else [c]

/-- A string with its quotes. -/
def quote (s : String) : String :=
  String.ofList ('"' :: s.toList.flatMap escapeChar ++ ['"'])

/-- Texts with a separator between them. -/
def separated (separator : String) : List String → String
  | [] => ""
  | [x] => x
  | x :: xs => x ++ separator ++ separated separator xs

/-- The text of a value without blanks. -/
def compact : Json → String
  | null => "null"
  | boolean b => if b then "true" else "false"
  | number n => n.text
  | string s => quote s
  | array xs => "[" ++ separated "," (elementTexts xs) ++ "]"
  | object ms => "\x7b" ++ separated "," (memberTexts ms) ++ "\x7d"
where
  /-- The texts of the elements of an array. -/
  elementTexts : List Json → List String
    | [] => []
    | x :: xs => x.compact :: elementTexts xs
  /-- The texts of the members of an object. -/
  memberTexts : List (String × Json) → List String
    | [] => []
    | (k, v) :: ms => (quote k ++ ":" ++ v.compact) :: memberTexts ms

/-- The start of a line at the given level. -/
def indentation (level : Nat) : String :=
  String.ofList (List.replicate (2 * level) ' ')

/-- Lines between two brackets, one level further in; nothing between them if there are no lines. -/
def bracketed (opening closing : String) (level : Nat) : List String → String
  | [] => opening ++ closing
  | lines =>
    opening ++ "\n" ++ separated ",\n" (lines.map (indentation (level + 1) ++ ·)) ++ "\n" ++
      indentation level ++ closing

/-- The text of a value that starts at the given level. -/
def layout (level : Nat) : Json → String
  | array xs => bracketed "[" "]" level (elementLines (level + 1) xs)
  | object ms => bracketed "\x7b" "\x7d" level (memberLines (level + 1) ms)
  | v => v.compact
where
  /-- The texts of the elements of an array. -/
  elementLines (level : Nat) : List Json → List String
    | [] => []
    | x :: xs => x.layout level :: elementLines level xs
  /-- The texts of the members of an object. -/
  memberLines (level : Nat) : List (String × Json) → List String
    | [] => []
    | (k, v) :: ms => (quote k ++ ": " ++ v.layout level) :: memberLines level ms

/-- The text of a value in lines. -/
def pretty (v : Json) : String :=
  v.layout 0

end Json

end JsonEmbed
