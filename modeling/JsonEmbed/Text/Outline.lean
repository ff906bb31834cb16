import JsonEmbed.Program
import JsonEmbed.Text.Quoted

/-!
# Outlines

How a structured value is shown in full: every part on lines of its own, one step further in than
the whole, with a comma after it.
-/

namespace JsonEmbed

/-- A value as it is shown. -/
inductive Outline where
  | word (text : String)
  /-- Parts between an opening and a closing, each after a label that may be empty. -/
  | group (opening : String) (parts : List (String × Outline)) (closing : String)
  deriving Inhabited

namespace Outline

/-- Lines with a text in front of the first. -/
def before (label : String) : List String → List String
  | [] => []
  | line :: lines => (label ++ line) :: lines

/-- Lines with a comma after the last. -/
def withComma : List String → List String
  | [] => []
  | [line] => [line ++ ","]
  | line :: lines => line :: withComma lines

/-- Lines of a part, one step further in. -/
def indented (lines : List String) : List String :=
  lines.map ("    " ++ ·)

/-- The lines of an outline. -/
def lines : Outline → List String
  | word text => [text]
  | group opening [] closing => [opening ++ closing]
  | group opening parts closing => opening :: linesOfAll parts ++ [closing]
where
  /-- The lines of the parts of a group. -/
  linesOfAll : List (String × Outline) → List String
    | [] => []
    | (label, part) :: parts =>
      indented (withComma (before label part.lines)) ++ linesOfAll parts

/-- The text of an outline. -/
def text (o : Outline) : String :=
  unlines o.lines

/-- A value with named fields. -/
def fields (name : String) (parts : List (String × Outline)) : Outline :=
  group (name ++ " \x7b") (parts.map fun part ↦ (part.1 ++ ": ", part.2)) "\x7d"

/-- A value that wraps another. -/
def wrap (name : String) (inner : Outline) : Outline :=
  group (name ++ "(") [("", inner)] ")"

/-- A text. -/
def ofText (s : String) : Outline :=
  word (quoted s)

/-- A truth value. -/
def ofBool (b : Bool) : Outline :=
  word (if b then "true" else "false")

/-- A text that may be missing. -/
def ofText? : Option String → Outline
  | none => word "None"
  | some s => wrap "Some" (ofText s)

/-- A list of texts. -/
def ofTexts (texts : List String) : Outline :=
  group "[" (texts.map fun s ↦ ("", ofText s)) "]"

end Outline

end JsonEmbed
