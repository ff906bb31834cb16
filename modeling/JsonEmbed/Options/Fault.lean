import JsonEmbed.Json.Fault

/-!
# Faults in a configuration

What can be wrong with a configuration text, where it is in the text, and on which part of the
configuration it was noticed. The part is a path; at the top it is empty, and where a key was being
read it is not known.
-/

namespace JsonEmbed

/-- What is wrong with a configuration. -/
inductive ConfigProblem where
  /-- The text is not well formed. -/
  | text (cause : Cause)
  | wrongType (found expected : String)
  | unknownKey (key : String) (known : List String)
  | repeatedKey (key : String)
  | unknownVariant (name : String) (known : List String)
  deriving DecidableEq, Inhabited

/-- A step to a part of a configuration. -/
inductive ConfigStep where
  | key (name : String)
  | element (index : Nat)
  /-- A part whose key was not known yet. -/
  | unknown
  deriving DecidableEq, Inhabited

/-- A problem, noticed on a part, with how many bytes of the text were still to come. -/
structure ConfigFault where
  path : List ConfigStep
  problem : ConfigProblem
  remaining : Nat
  deriving DecidableEq, Inhabited

/-- A problem, noticed on a part, with its place in the text. -/
structure ConfigError where
  path : List ConfigStep
  problem : ConfigProblem
  position : Position
  deriving DecidableEq, Inhabited

namespace ConfigProblem

/-- A name as messages show it. -/
def ticked (name : String) : String :=
  "`" ++ name ++ "`"

/-- The names that would have done: two are joined by a word, more are listed. -/
def oneOf : List String → String
  | [a, b] => ticked a ++ " or " ++ ticked b
  | names => "one of " ++ ", ".intercalate (names.map ticked)

/-- The wording of a problem. -/
def message : ConfigProblem → String
  | text c => c.message
  | wrongType found expected => "invalid type: " ++ found ++ ", expected " ++ expected
  | unknownKey key known => "unknown field " ++ ticked key ++ ", expected " ++ oneOf known
  | repeatedKey key => "duplicate field " ++ ticked key
  | unknownVariant name known => "unknown variant " ++ ticked name ++ ", expected " ++ oneOf known

end ConfigProblem

namespace ConfigStep

/-- The text of the steps after the first, each set off by a dot unless it is an index. -/
def textAfter : List ConfigStep → String
  | [] => ""
  | key name :: rest => "." ++ name ++ textAfter rest
  | element i :: rest => "[" ++ Nat.repr i ++ "]" ++ textAfter rest
  | unknown :: rest => ".?" ++ textAfter rest

/-- The text of a path. -/
def pathText : List ConfigStep → String
  | [] => "."
  | key name :: rest => name ++ textAfter rest
  | element i :: rest => "[" ++ Nat.repr i ++ "]" ++ textAfter rest
  | unknown :: rest => "?" ++ textAfter rest

end ConfigStep

namespace ConfigError

/-- The place of a fault in the text that was being read. -/
def ofFault (document : Bytes) (f : ConfigFault) : ConfigError :=
  ⟨f.path, f.problem, .before document f.remaining⟩

/-- The text of an error. -/
def message (e : ConfigError) : String :=
  "at JSON path " ++ ConfigStep.pathText e.path ++ " → " ++ e.problem.message ++
    e.position.describe

end ConfigError

end JsonEmbed
