/-!
# File formats

The formats that a conversion can read or write. Only C source can be written.
-/

namespace JsonEmbed

/-- A file format. -/
structure FileFormat where
  name : String
  /-- The short name by which it is looked up. -/
  format : String
  extension : String
  mime : String
  /-- Whether it can be converted from. -/
  source : Bool
  /-- Whether it can be converted to. -/
  target : Bool
  deriving DecidableEq, Inhabited

namespace FileFormat

/-- C source. -/
def cSource : FileFormat :=
  ⟨"C Source File", "c", "c", "text/x-c", false, true⟩

/-- JSON documents. -/
def json : FileFormat :=
  ⟨"JavaScript Object Notation", "json", "json", "application/json", true, false⟩

/-- All formats. -/
def supported : List FileFormat :=
  [cSource, json]

/-- A text with its ASCII letters in lower case. -/
def foldCase (s : String) : List Char :=
  s.toList.map Char.toLower

/-- The format with a given short name, in whatever case. -/
def lookup? (format : String) : Option FileFormat :=
  supported.find? fun f ↦ foldCase f.format == foldCase format

end FileFormat

end JsonEmbed
