import JsonEmbed.Files.Path
import JsonEmbed.Text.Utf8

/-!
# File systems

A file system says what is at each place. A place is reached from the root by names, a path from the
root or the working directory by pieces. Every piece of a path, even one that is empty or a dot,
needs a directory to start from: this is why a path that goes through a file, or ends with a slash
after one, fails.

Reading, making a directory and writing a file each fail with a `FileError` and then change nothing.
`FileSystem.createAll` makes several directories and may fail after the first of them.

Left out are permissions, symbolic links and errors of the device. So a file that can be opened for
writing is written in full, where a device may fail after the old content is gone; and what is in a
directory can always be listed.
-/

namespace JsonEmbed

/-- A place, by the names on the way to it from the root. -/
abbrev Place := List String

/-- What can be at a place. -/
inductive Entry where
  | directory
  | file (bytes : Bytes)
  deriving DecidableEq, Inhabited

/-- Why an operation on files fails. -/
inductive FileError where
  | notFound
  | notDirectory
  | isDirectory
  | alreadyExists
  /-- There is no directory left to start from. -/
  | noStart
  deriving DecidableEq, Inhabited

namespace FileError

/-- The text of an error. -/
def message : FileError → String
  | notFound => "No such file or directory (os error 2)"
  | notDirectory => "Not a directory (os error 20)"
  | isDirectory => "Is a directory (os error 21)"
  | alreadyExists => "File exists (os error 17)"
  | noStart => "failed to create whole tree"

end FileError

/-- What is at each place, and where relative paths start. -/
structure FileSystem where
  workingDirectory : Place
  entries : List (Place × Entry)
  deriving Inhabited

namespace FileSystem

/-! ### Places -/

/-- What is at a place. The root is always a directory. -/
def get? (fs : FileSystem) (p : Place) : Option Entry :=
  if p = [] then some .directory else fs.entries.lookup p

/-- The file system with a given entry at a place. -/
def set (fs : FileSystem) (p : Place) (e : Entry) : FileSystem :=
  { fs with entries := (p, e) :: fs.entries.filter fun old ↦ old.1 != p }

/-- Whether a place comes before another one in the order of names, or is the same. -/
def inOrder (p q : Place) : Bool :=
  !q.lex p fun s t ↦ decide (s < t)

/-- The ways from a place to everything below it. A directory comes before what is in it, and the
entries of one directory are in the order of their names. -/
def below (fs : FileSystem) (p : Place) : List Place :=
  let ways := fs.entries.filterMap fun e ↦ p.isPrefixOf? e.1
  (ways.filter fun way ↦ !way.isEmpty).mergeSort inOrder

/-- The entries that an earlier file system lacks or has otherwise, a directory before what is in
it. -/
def changesSince (fs before : FileSystem) : List (Place × Entry) :=
  (fs.entries.filter fun e ↦ before.get? e.1 != some e.2).mergeSort fun a b ↦ inOrder a.1 b.1

theorem get?_set (fs : FileSystem) {p : Place} (e : Entry) (q : Place) (hp : p ≠ []) :
    (fs.set p e).get? q = if q = p then some e else fs.get? q := by
  have lookup_filter (entries : List (Place × Entry)) (hq : q ≠ p) :
      (entries.filter fun old ↦ old.1 != p).lookup q = entries.lookup q := by
    induction entries with
    | nil => rfl
    | cons old entries ih =>
      obtain ⟨r, f⟩ := old
      by_cases hr : r = p
      · have hqr : (q == r) = false := by simpa [hr] using hq
        simp [List.lookup_cons, hr, ih, hr ▸ hqr]
      · simp [List.lookup_cons, hr, ih]
  by_cases hq : q = p
  · subst hq
    simp [get?, set, hp]
  · have hqp : (q == p) = false := by simpa using hq
    simp [get?, set, hq, List.lookup_cons, hqp, lookup_filter fs.entries hq]

/-! ### Paths -/

/-- The place that one piece of a path leads to from a place, which must be a directory. -/
def step (fs : FileSystem) (here : Place) (piece : List Char) : Except FileError Place :=
  match fs.get? here with
  | none => .error .notFound
  | some (.file _) => .error .notDirectory
  | some .directory =>
    if piece = [] ∨ piece = ['.'] then .ok here
    else if piece = ['.', '.'] then .ok here.dropLast
    else .ok (here ++ [String.ofList piece])

/-- The place that pieces of a path lead to. -/
def walk (fs : FileSystem) : Place → List (List Char) → Except FileError Place
  | here, [] => .ok here
  | here, piece :: pieces => do
    let next ← fs.step here piece
    fs.walk next pieces

/-- Where a path starts, and its pieces. -/
def start (fs : FileSystem) (path : String) : Place × List (List Char) :=
  match path.toList with
  | '/' :: cs => ([], splitOn '/' cs)
  | cs => (fs.workingDirectory, splitOn '/' cs)

/-- The place that a path leads to. Nothing need be there. -/
def place (fs : FileSystem) (path : String) : Except FileError Place :=
  if path.isEmpty then .error .notFound
  else
    let (here, pieces) := fs.start path
    fs.walk here pieces

/-- What a path leads to. -/
def find (fs : FileSystem) (path : String) : Except FileError Entry := do
  let p ← fs.place path
  match fs.get? p with
  | some e => .ok e
  | none => .error .notFound

/-- Whether a path leads to anything. -/
def contains (fs : FileSystem) (path : String) : Bool :=
  (fs.find path).toOption.isSome

/-- Whether a path leads to a directory. -/
def isDirectory (fs : FileSystem) (path : String) : Bool :=
  (fs.find path).toOption == some .directory

/-- The bytes of the file that a path leads to. -/
def read (fs : FileSystem) (path : String) : Except FileError Bytes := do
  match ← fs.find path with
  | .file bytes => .ok bytes
  | .directory => .error .isDirectory

/-- The ways from a directory to everything below it. -/
def list (fs : FileSystem) (path : String) : List Place :=
  match fs.place path with
  | .ok p => if fs.isDirectory path then fs.below p else []
  | .error _ => []

/-! ### Changes -/

/-- The place that a path names as a new one: slashes at the end do not count, and the last piece
before them must be a name. -/
def newPlace? (fs : FileSystem) (path : String) : Except FileError (Option Place) :=
  if path.isEmpty then .error .notFound
  else
    let (here, pieces) := fs.start path
    match pieces.reverse.dropWhile List.isEmpty with
    | [] => .ok none
    | last :: before => do
      let next ← fs.walk here before.reverse
      let p ← fs.step next last
      return if last = ['.'] ∨ last = ['.', '.'] then none else some p

/-- Makes a directory. -/
def makeDirectory (fs : FileSystem) (path : String) : Except FileError FileSystem := do
  match ← fs.newPlace? path with
  | none => .error .alreadyExists
  | some p =>
    match fs.get? p with
    | some _ => .error .alreadyExists
    | none => .ok (fs.set p .directory)

/-- Writes a file, over an older one if need be. -/
def write (fs : FileSystem) (path : String) (bytes : Bytes) : Except FileError FileSystem := do
  match ← fs.newPlace? path with
  | none => .error .isDirectory
  | some p =>
    if Path.meansDirectory path ∨ fs.get? p = some .directory then .error .isDirectory
    else .ok (fs.set p (.file bytes))

/-- Makes a directory if it is not there. -/
def ensure (fs : FileSystem) (path : String) : FileSystem × Option FileError :=
  match fs.makeDirectory path with
  | .ok after => (after, none)
  | .error e => (fs, if fs.isDirectory path then none else some e)

/-- Makes a directory after at most so many directories on the way to it. -/
def createWithin : Nat → FileSystem → String → FileSystem × Option FileError
  | 0, fs, _ => (fs, some .noStart)
  | fuel + 1, fs, path =>
    if path.isEmpty then (fs, none)
    else
      match fs.makeDirectory path with
      | .error .notFound =>
        match Path.parent? path with
        | none => (fs, some .noStart)
        | some parent =>
          match createWithin fuel fs parent with
          | (after, none) => after.ensure path
          | failed => failed
      | _ => fs.ensure path

/-- Makes a directory and the missing ones on the way to it. A path has fewer directories on it than
characters. -/
def createAll (fs : FileSystem) (path : String) : FileSystem × Option FileError :=
  createWithin (path.length + 1) fs path

/-- Puts an entry at a place, and directories on the way to it. -/
def plant (fs : FileSystem) (p : Place) (e : Entry) : FileSystem :=
  let found (fs : FileSystem) (way : Place) : FileSystem :=
    if fs.get? way = none then fs.set way .directory else fs
  (((List.range p.length).map p.take).foldl found fs).set p e

end FileSystem

end JsonEmbed
