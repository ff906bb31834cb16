import JsonEmbed.Text.Position

/-!
# Syntax faults

What a reader of JSON text can find wrong, and where. While reading, a place is known by how many
bytes are still to come; the line and column are worked out once, against the whole document.
-/

namespace JsonEmbed

/-- What is wrong with a JSON text. -/
inductive Cause where
  | endInValue
  | endInList
  | endInObject
  | endInString
  | expectedValue
  | expectedKeyword
  | expectedColon
  | expectedListEnd
  | expectedObjectEnd
  | trailingComma
  | trailingCharacters
  | keyNotString
  | invalidNumber
  | numberOutOfRange
  | invalidEscape
  | controlCharacter
  | invalidCodePoint
  | endInHexEscape
  | loneSurrogate
  | depthLimit
  deriving DecidableEq, Inhabited

/-- The wording of a fault. -/
def Cause.message : Cause → String
  | endInValue => "EOF while parsing a value"
  | endInList => "EOF while parsing a list"
  | endInObject => "EOF while parsing an object"
  | endInString => "EOF while parsing a string"
  | expectedValue => "expected value"
  | expectedKeyword => "expected ident"
  | expectedColon => "expected `:`"
  | expectedListEnd => "expected `,` or `]`"
  | expectedObjectEnd => "expected `,` or `\x7d`"
  | trailingComma => "trailing comma"
  | trailingCharacters => "trailing characters"
  | keyNotString => "key must be a string"
  | invalidNumber => "invalid number"
  | numberOutOfRange => "number out of range"
  | invalidEscape => "invalid escape"
  | controlCharacter => "control character (\\u0000-\\u001F) found while parsing a string"
  | invalidCodePoint => "invalid unicode code point"
  | endInHexEscape => "unexpected end of hex escape"
  | loneSurrogate => "lone leading surrogate in hex escape"
  | depthLimit => "recursion limit exceeded"

/-- A fault met while reading: what it is, and how many bytes were still to come. -/
structure Fault where
  cause : Cause
  remaining : Nat
  deriving DecidableEq, Inhabited

/-- A reader gives a value and the bytes after it, or a fault. -/
abbrev ReadResult (α : Type) := Except Fault (α × Bytes)

namespace Fault

/-- A fault right before the given bytes. -/
def «at» {α : Type} (rest : Bytes) (cause : Cause) : Except Fault α :=
  .error ⟨cause, rest.length⟩

/-- A fault in the first of the given bytes: its place is the one after that byte, if there is
one. -/
def within {α : Type} (rest : Bytes) (cause : Cause) : Except Fault α :=
  .error ⟨cause, rest.length - 1⟩

end Fault

/-- A fault with its place in the document. -/
structure SyntaxError where
  cause : Cause
  position : Position
  deriving DecidableEq, Inhabited

namespace SyntaxError

/-- The place of a fault in the document that was being read. -/
def ofFault (document : Bytes) (f : Fault) : SyntaxError :=
  ⟨f.cause, .before document f.remaining⟩

/-- The text of a syntax error. -/
def message (e : SyntaxError) : String :=
  e.cause.message ++ e.position.describe

end SyntaxError

end JsonEmbed
