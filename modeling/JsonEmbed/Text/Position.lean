import JsonEmbed.Text.Utf8

/-!
# Positions in a text

A place in a document is named by its line, counted from one, and its column, the number of bytes
since the line began.
-/

namespace JsonEmbed

/-- A line, counted from one, and a column in bytes. -/
structure Position where
  line : Nat
  column : Nat
  deriving DecidableEq, Inhabited

namespace Position

/-- The byte that ends a line. -/
def newline : UInt8 := 0x0a

/-- The place right after the given bytes. -/
def after (bytes : Bytes) : Position :=
  ⟨1 + bytes.count newline, (bytes.reverse.takeWhile (· != newline)).length⟩

/-- The place that has `remaining` bytes of the document behind it. A document shorter than that
has its first place there. -/
def before (document : Bytes) (remaining : Nat) : Position :=
  after (document.take (document.length - remaining))

/-- How messages name a place. -/
def describe (p : Position) : String :=
  " at line " ++ Nat.repr p.line ++ " column " ++ Nat.repr p.column

end Position

end JsonEmbed
