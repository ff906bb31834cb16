import JsonEmbed.Text.Split

/-!
# Paths

A path is a text; its pieces lie between slashes. A piece that is empty or a single dot says nothing
and is passed over, except that an empty one at the front stands for the root and a dot at the front
for the working directory. What is left are the components of the path.
-/

namespace JsonEmbed

namespace Path

/-- What a piece of a path stands for. -/
inductive Component where
  | root
  | current
  | parent
  | name (text : String)
  deriving DecidableEq, Inhabited

/-- The component that a piece stands for, if it is not passed over. -/
def component? (first : Bool) (piece : List Char) : Option Component :=
  if piece = [] then none
  else if piece = ['.'] then if first then some .current else none
  else if piece = ['.', '.'] then some .parent
  else some (.name (String.ofList piece))

/-- The components of a path. -/
def components (path : String) : List Component :=
  match path.toList with
  | '/' :: cs => .root :: (splitOn '/' cs).filterMap (component? false)
  | cs =>
    match splitOn '/' cs with
    | [] => []
    | piece :: pieces => (component? true piece).toList ++ pieces.filterMap (component? false)

/-- The last component, if it is a name. -/
def fileName? (path : String) : Option String :=
  match (components path).getLast? with
  | some (.name text) => some text
  | _ => none

/-- The part of a file name before its last dot, or all of it if that part is empty. -/
def stem (name : String) : String :=
  if name = ".." then name
  else
    match (splitOn '.' name.toList).reverse with
    | _ :: before :: rest =>
      let text := joinWith '.' (before :: rest).reverse
      if text = [] then name else String.ofList text
    | _ => name

/-- Pieces without those at the end that are passed over. The pieces come last first. -/
def dropSilent : List (List Char) → List (List Char)
  | [] => []
  | [piece] => [piece]
  | piece :: pieces =>
    if piece = [] ∨ piece = ['.'] then dropSilent pieces else piece :: pieces

/-- The path without its last component, if it has one that is not the root. -/
def parent? (path : String) : Option String :=
  match dropSilent (splitOn '/' path.toList).reverse with
  | [] => none
  | [[]] => none
  | [_] => some ""
  | _ :: pieces =>
    match dropSilent pieces with
    | [[]] => some "/"
    | pieces => some (String.ofList (joinWith '/' pieces.reverse))

/-- The path of a name below a directory. An absolute path stands for itself. -/
def join (directory name : String) : String :=
  if name.toList.head? = some '/' then name
  else if directory.isEmpty ∨ directory.toList.getLast? = some '/' then directory ++ name
  else directory ++ "/" ++ name

/-- Whether a path ends with a slash, and so can only mean a directory. -/
def meansDirectory (path : String) : Bool :=
  path.toList.getLast? == some '/'

end Path

end JsonEmbed
