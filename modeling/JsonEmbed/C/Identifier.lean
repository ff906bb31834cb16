/-!
# C identifiers

Every member of a generated structure is named after a key of a document. `C.identifier` turns any
text into a usable identifier: characters that C does not allow become underscores, a leading digit
gets one in front, and a word that C or the generated program's headers reserve gets one behind. A
text that is usable already stays as it is.
-/

namespace JsonEmbed

namespace C

/-- The letters, digits and the underscore of ASCII. -/
def isIdentifierChar (c : Char) : Bool :=
  c.isAlphanum || c == '_'

/-- The keywords of C11, and the macros for truth values and null pointers. -/
def reserved : List String :=
  ["auto", "break", "case", "char", "const", "continue", "default", "do", "double", "else",
   "enum", "extern", "float", "for", "goto", "if", "inline", "int", "long", "register",
   "restrict", "return", "short", "signed", "sizeof", "static", "struct", "switch", "typedef",
   "union", "unsigned", "void", "volatile", "while", "_Alignas", "_Alignof", "_Atomic",
   "_Bool", "_Complex", "_Generic", "_Imaginary", "_Noreturn", "_Static_assert",
   "_Thread_local", "bool", "true", "false", "NULL"]

/-- The text with an underscore in place of each character that cannot stand in an identifier. -/
def replaceOthers (s : List Char) : List Char :=
  s.map fun c ↦ if isIdentifierChar c then c else '_'

/-- The text with an underscore before a leading digit. -/
def guardDigit : List Char → List Char
  | [] => ['_']
  | c :: cs => if c.isDigit then '_' :: c :: cs else c :: cs

/-- The text with an underscore after it if it is reserved. -/
def guardReserved (s : String) : String :=
  if s ∈ reserved then s ++ "_" else s

/-- The identifier for a text. -/
def identifier (s : String) : String :=
  guardReserved (String.ofList (guardDigit (replaceOthers s.toList)))

end C

end JsonEmbed
