/-!
# Emission options

What a program is generated from besides the document: the name of its variable, how nested objects
are laid out, what array elements are set to, and which part of the document is meant.
-/

namespace JsonEmbed

/-- How objects below the top level are declared. -/
inductive NestedLayout where
  /-- The members of a nested object share one storage region. -/
  | union
  /-- The members of a nested object have storage of their own. -/
  | struct
  deriving DecidableEq, Inhabited

/-- What array elements are set to. -/
inductive ArrayInitializer where
  /-- Each element to its value. -/
  | values
  /-- Each element to its index. -/
  | indices
  deriving DecidableEq, Inhabited

/-- The emission options. -/
structure Options where
  /-- The text that the variable is named after. -/
  rootName : String := "jsonObject"
  nestedLayout : NestedLayout := .union
  arrayInitializer : ArrayInitializer := .values
  /-- A JSON pointer to the part of a document that is meant. -/
  pointer : Option String := none
  /-- A filter that must give the value that is meant. -/
  filter : Option String := none
  deriving DecidableEq, Inhabited

namespace NestedLayout

/-- The spelling of a layout in a configuration. -/
def name : NestedLayout → String
  | union => "union"
  | struct => "struct"

/-- The layout with a given spelling. -/
def ofName? : String → Option NestedLayout
  | "union" => some union
  | "struct" => some struct
  | _ => none

end NestedLayout

namespace ArrayInitializer

/-- The spelling in a configuration. -/
def name : ArrayInitializer → String
  | values => "values"
  | indices => "legacy_index"

/-- The initializer with a given spelling. -/
def ofName? : String → Option ArrayInitializer
  | "values" => some values
  | "legacy_index" => some indices
  | _ => none

end ArrayInitializer

end JsonEmbed
