import JsonEmbed.Assignment
import JsonEmbed.Declaration

/-!
# Programs

A generated program is one main function that declares a variable and assigns to its slots. A value
that is no object has nothing to declare and counts as an empty object. The program of a document
that could not be read is the empty one.
-/

namespace JsonEmbed

/-- A text from its lines. -/
def unlines (lines : List String) : String :=
  lines.foldr (fun line rest ↦ line ++ "\n" ++ rest) ""

namespace Program

/-- The lines up to the body of the main function. -/
def preamble : List String :=
  ["#include <stdio.h>", "#include <stdbool.h>", "", "", "int main(int argc, char** argv) \x7b"]

/-- The lines after the body of the main function. -/
def epilogue : List String :=
  ["\treturn 0;", "\x7d"]

/-- The lines of the program with no body. -/
def shell : List String :=
  preamble ++ epilogue

/-- The lines of a program. Assignments, if there are any, are set off by an empty line. -/
def lines (b : Block) (assignments : List Assignment) : List String :=
  preamble ++ b.lines 0 ++
    (if assignments.isEmpty then [] else "" :: assignments.map Assignment.line) ++ [""] ++ epilogue

end Program

namespace Json

/-- The block that declares a value. -/
def block (options : Options) (v : Json) : Block :=
  Block.ofMembers options 0 options.rootName v.members

/-- The assignments that set the slots of a value's block. -/
def assignments (options : Options) (v : Json) : List Assignment :=
  Assignment.ofMembers options.arrayInitializer (C.identifier options.rootName) v.members

/-- The text of the program for a value. -/
def program (options : Options) (v : Json) : String :=
  unlines (Program.lines (v.block options) (v.assignments options))

end Json

end JsonEmbed
