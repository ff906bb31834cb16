import JsonEmbed.CommandLine.Arguments
import JsonEmbed.CommandLine.Run
import JsonEmbed.Query.Fragment

/-!
# The program

The outer layer of the command line. It surveys the part of the file system that a command may look
at, reads the files that the command will read, runs the command on what was found, and then carries
out the changes and prints the texts. Queries are run by the interpreter of the fragment.
-/

namespace JsonEmbed

namespace Survey

/-- How many levels of directories are surveyed where a pattern may descend. -/
def deepest : Nat := 256

/-- The path of a place. -/
def pathOf (p : Place) : String :=
  "/" ++ "/".intercalate p

/-- Where the wildcards of a pattern begin, and how deep they can reach. -/
def reach (p : PathPattern) : String × Nat :=
  let names := p.steps.takeWhile fun | .follow _ => true | _ => false
  let origin := names.foldl (fun path step ↦
    match step with | .follow name => PathPattern.extend path name | _ => path) p.origin
  let steps := p.steps.drop names.length
  (origin, if steps.contains .descend then deepest else steps.length)

/-- The path to survey for an input, and how deep. -/
def ofInput (input : String) : String × Nat :=
  if Inputs.isPattern input then
    match PathPattern.read input with
    | .ok p => reach p
    | .error _ => (input, 0)
  else (input, 0)

/-- The paths that a command may look at, and how deep. -/
def ofCommand (c : Command) : List (String × Nat) :=
  let target :=
    match c.task with
    | .programs _ directory => directory.toList.map fun path ↦ (path, 1)
    | .declarations file => file.toList.map fun path ↦ (path, 0)
  c.settings.inputs.map ofInput ++ c.settings.config.toList.map (fun path ↦ (path, 0)) ++ target

/-- Adds what is at a place. -/
def addPlace (fs : FileSystem) (p : Place) : IO FileSystem := do
  let real := (← IO.currentDir) / pathOf p
  if ← real.isDir then return fs.plant p .directory
  else if ← real.pathExists then return fs.plant p (.file [])
  else return fs

/-- Adds what is at a place and so many levels below it. -/
def addBelow : Nat → FileSystem → Place → IO FileSystem
  | 0, fs, p => addPlace fs p
  | depth + 1, fs, p => do
    let mut found ← addPlace fs p
    if found.get? p = some .directory then
      for entry in ← ((← IO.currentDir) / pathOf p).readDir do
        found ← addBelow depth found (p ++ [entry.fileName])
    return found

/-- Adds what is on the way along the pieces of a path, and so many levels below its end. -/
def addAlong (depth : Nat) (fs : FileSystem) (here : Place) : List (List Char) → IO FileSystem
  | [] => addBelow depth fs here
  | piece :: pieces => do
    let found ← addPlace fs here
    match found.step here piece with
    | .ok next => addAlong depth found next pieces
    | .error _ => return found

/-- Puts the bytes of the file at a path in place. -/
def addBytes (fs : FileSystem) (path : String) : IO FileSystem := do
  match fs.place path, fs.find path with
  | .ok p, .ok (.file _) =>
    let bytes ← IO.FS.readBinFile ((← IO.currentDir) / path)
    return fs.plant p (.file bytes.toList)
  | _, _ => return fs

/-- The part of the file system that a command may look at. -/
def run (c : Command) : IO FileSystem := do
  let home := ((← IO.currentDir).toString.splitOn "/").filter fun name ↦ !name.isEmpty
  let mut fs := FileSystem.plant ⟨home, []⟩ home .directory
  for (path, depth) in ofCommand c do
    let (here, pieces) := fs.start path
    fs ← addAlong depth fs here pieces
  let sources := (Inputs.resolve fs c.settings.inputs).toOption.getD []
  for path in sources ++ c.settings.config.toList do
    fs ← addBytes fs path
  return fs

end Survey

/-- Makes a change to the file system. -/
def carryOut (place : Place) : Entry → IO Unit
  | .directory => do IO.FS.createDir ((← IO.currentDir) / Survey.pathOf place)
  | .file bytes => do
    IO.FS.writeBinFile ((← IO.currentDir) / Survey.pathOf place) ⟨bytes.toArray⟩

/-- The text that says how the program is used. -/
def usageText : String :=
  String.join <| (· ++ "\n") <$>
    ["embed JSON documents into C source: one typed, initialized struct per document", "",
     "Usage: json-cgen c --input <INPUT>... [OPTIONS]",
     "       json-cgen schema --input <INPUT>... [OPTIONS]", "",
     "  -i, --input <INPUT>...      paths or patterns of the documents",
     "      --json-pointer <TEXT>   the part of each document that is meant",
     "      --jq-expr <TEXT>        a filter that must give one value for each document",
     "      --config <PATH>         a configuration with emission options",
     "      --root-name <NAME>      the name of the variable",
     "      --nested-structs        declare nested objects as structs instead of unions",
     "      --legacy-array-indices  assign array indices instead of element values",
     "      --no-op                 only show the command",
     "      --to <FORMAT>           (c) the output format, c if not given",
     "  -o, --out-dir <PATH>        (c) the directory for the programs",
     "  -o, --out <PATH>            (schema) the file for the declarations"]

/-- Says why no command is run. -/
def explain (e : UsageError) : IO Unit := do
  match e with
  | .version => (← IO.getStdout).putStr Arguments.versionLine
  | .help => (← IO.getStdout).putStr usageText
  | _ => (← IO.getStderr).putStr usageText

/-- Tells a serious event on the standard error stream. -/
def tell (e : Event) : IO Unit := do
  if e.level = "WARN" then
    let details := e.details.map fun (name, value) ↦ " " ++ name ++ "=" ++ value
    (← IO.getStderr).putStrLn ("WARN " ++ e.message ++ String.join details)

/-- Runs a command and says what came of it. -/
def execute (c : Command) : IO UInt32 := do
  let fs ← Survey.run c
  let report := c.run fs
  for (place, entry) in report.files.changesSince fs do
    carryOut place entry
  report.events.forM tell
  (← IO.getStderr).putStr report.messages
  (← IO.getStdout).putStr report.output
  if let some failure := report.failure then
    (← IO.getStderr).putStrLn ("error: " ++ failure.message)
  return report.exitCode.toUInt32

end JsonEmbed

/-- Runs the command that the words of the command line tell. -/
def main (words : List String) : IO UInt32 :=
  match JsonEmbed.Arguments.parse words with
  | .error e => do
    JsonEmbed.explain e
    return e.exitCode.toUInt32
  | .ok command => JsonEmbed.execute command
