import JsonEmbed.Files.FileSystem
import JsonEmbed.Files.Pattern

/-!
# Expanding patterns of paths

A pattern of paths is a pattern of names in each piece. It stands for the paths of all that is there
and is meant, directory by directory in the order of the names. A piece without wildcards is not
looked for among names but followed, so that a dot or two can be such a piece. Directories can be
listed, so an expansion never fails at an entry.
-/

namespace JsonEmbed

/-- A piece of a pattern of paths. -/
inductive PatternStep where
  /-- Any number of directories. -/
  | descend
  | follow (name : String)
  | choose (names : Pattern)
  deriving DecidableEq, Inhabited

/-- A pattern of paths. -/
structure PathPattern where
  /-- Where the steps begin. -/
  origin : String
  steps : List PatternStep
  /-- Whether only directories are meant. -/
  directories : Bool
  deriving DecidableEq, Inhabited

namespace PatternStep

/-- The step that a pattern of names stands for. -/
def ofPattern (p : Pattern) : PatternStep :=
  if p = [.directories] then descend
  else
    match p.spelled? with
    | some name => follow (String.ofList name)
    | none => choose p

/-- Whether a name is meant. -/
def accepts (name : String) : PatternStep → Bool
  | descend => true
  | follow only => name == only
  | choose p => p.accepts name.toList

end PatternStep

namespace PathPattern

/-- Pieces without an empty one at the end. -/
def dropLastEmpty : List (List Char) → List (List Char)
  | [] => []
  | [[]] => []
  | piece :: pieces => piece :: dropLastEmpty pieces

/-- The steps of pieces, each read as a pattern of its own. -/
def stepsOfPieces : List (List Char) → Except PatternError (List PatternStep)
  | [] => .ok []
  | piece :: pieces => do
    let p ← Pattern.read piece
    return .ofPattern p :: (← stepsOfPieces pieces)

/-- The pattern of paths that a text stands for. The text is read as a whole first: a fault that
shows only there is found before one in a piece. -/
def read (text : String) : Except PatternError PathPattern := do
  let _ ← Pattern.read text.toList
  let (origin, relative) :=
    match text.toList with
    | '/' :: cs => ("/", cs)
    | cs => (".", cs)
  let steps ← stepsOfPieces (dropLastEmpty (splitOn '/' relative))
  return ⟨origin, steps, Path.meansDirectory text⟩

/-- The path of an entry of a directory. The working directory leaves no trace. -/
def extend (path name : String) : String :=
  if Path.components path = [.current] then name else Path.join path name

/-- The dots that a pattern means. It must begin with a dot itself. -/
def dots (p : Pattern) : List String :=
  if p.head? = some (.char '.') then ["..", "."].filter fun name ↦ p.accepts name.toList else []

/-- Whether following a name leads somewhere. -/
def leads (fs : FileSystem) (path name : String) : Bool :=
  if name = "." ∨ name = ".." then fs.isDirectory path else fs.contains (extend path name)

/-- The names of a directory's entries. -/
def entryNames (fs : FileSystem) (path : String) : List String :=
  (fs.list path).filterMap fun way ↦
    match way with
    | [name] => some name
    | _ => none

/-- The path at the end of a way from a directory. -/
def alongWay (path : String) (way : Place) : String :=
  way.foldl extend path

/-- Whether the name at the end of a way is meant by a step. -/
def endAccepted (step : PatternStep) (way : Place) : Bool :=
  way.getLast?.any fun name ↦ step.accepts name

/-- The paths that steps from a path lead to. -/
def expand (fs : FileSystem) : List PatternStep → String → List String
  | [], path => [path]
  | .follow name :: steps, path =>
    if leads fs path name then expand fs steps (extend path name) else []
  | .choose p :: steps, path =>
    if fs.isDirectory path then
      ((dots p).flatMap fun name ↦ expand fs steps (Path.join path name)) ++
        ((entryNames fs path).filter fun name ↦ p.accepts name.toList).flatMap fun name ↦
          expand fs steps (extend path name)
    else []
  | [.descend], path =>
    ((fs.list path).map (alongWay path)).filter fs.isDirectory
  | .descend :: .descend :: steps, path => expand fs (.descend :: steps) path
  | .descend :: step :: steps, path =>
    ((fs.list path).filter (endAccepted step)).flatMap fun way ↦
      expand fs steps (alongWay path way)
termination_by steps => steps.length

/-- The paths that a pattern stands for. -/
def paths (fs : FileSystem) (p : PathPattern) : List String :=
  let all := expand fs p.steps p.origin
  if p.directories then all.filter fs.isDirectory else all

end PathPattern

end JsonEmbed
