import JsonEmbed.CommandLine.Inputs
import JsonEmbed.Query.Fragment

/-!
# Running commands

What a command does to a file system and what it says. Everything is read before anything is said or
written, so a command that cannot read all it needs leaves no trace. A document that stands for no
value makes no command fail: it is named in a warning.

`Command.run` gives a `Report`, which holds the failure if there is one, the texts for the two
output streams, the events and the file system afterwards. The queries of a command are run by any
interpreter; a program that names no other one gets that of the fragment.
-/

namespace JsonEmbed

/-- What comes of a command. -/
structure Report where
  failure : Option Failure := none
  /-- The text for the standard output. -/
  output : String := ""
  /-- The text for the standard error stream. -/
  messages : String := ""
  events : List Event := []
  files : FileSystem
  deriving Inhabited

namespace Report

/-- The exit code. -/
def exitCode (r : Report) : Nat :=
  if r.failure.isSome then 1 else 0

/-- The report on a command that fails before it does anything. -/
def failed (fs : FileSystem) (f : Failure) : Report :=
  { failure := some f, files := fs }

end Report

/-! ### What is said -/

/-- The warning that names the documents which stand for no value. -/
def warning (diagnostics : List Diagnostic) : String :=
  if diagnostics = [] then ""
  else
    "warning: " ++ Nat.repr diagnostics.length ++ " document(s) could not be converted: " ++
      Json.separated ", " (diagnostics.map Diagnostic.document) ++ "\n"

/-- The line that says that a file has been written. -/
def wroteLine (path : String) : String :=
  "wrote " ++ path ++ "\n"

/-- The programs as they are printed. If there are several, each has a line with its name. -/
def printed (outputs : List OutputDocument) : String :=
  let header (o : OutputDocument) : String :=
    if outputs.length > 1 then "/* ==> " ++ o.name ++ " <== */\n" else ""
  String.join (outputs.map fun o ↦ header o ++ o.text ++ "\n")

/-! ### Programs -/

/-- What comes of writing files one after the other: which were written, why the next was not, and
the file system afterwards. -/
structure Writing where
  written : List String
  failure : Option Failure
  files : FileSystem
  deriving Inhabited

/-- Writes programs to a directory until one cannot be written. -/
def writeOutputs (fs : FileSystem) (directory : String) : List OutputDocument → Writing
  | [] => ⟨[], none, fs⟩
  | o :: os =>
    let path := Path.join directory o.name
    match fs.write path (Utf8.encode o.text) with
    | .error e => ⟨[], some (.write path e), fs⟩
    | .ok after =>
      let rest := writeOutputs after directory os
      ⟨path :: rest.written, rest.failure, rest.files⟩

/-- The conversion that is asked for. -/
def converted [Query.Interpreter] (fs : FileSystem) (s : Settings) (format : String) :
    Except Failure Conversion :=
  match FileFormat.lookup? format with
  | none => .error (.conversion (.unsupportedFormat format))
  | some f => do
    let options ← s.options fs
    let documents ← Inputs.documents fs s.inputs
    (Conversion.run options f documents).mapError .conversion

/-- Delivers the programs of a conversion. -/
def deliver (fs : FileSystem) (directory : Option String) (c : Conversion) : Report :=
  let warned := warning c.diagnostics
  match directory with
  | none => { output := printed c.outputs, messages := warned, events := c.events, files := fs }
  | some directory =>
    match fs.createAll directory with
    | (after, some e) =>
      { failure := some (.create directory e), messages := warned, events := c.events
        files := after }
    | (after, none) =>
      let w := writeOutputs after directory c.outputs
      { failure := w.failure, messages := warned ++ String.join (w.written.map wroteLine)
        events := c.events, files := w.files }

/-- Writes the programs that are asked for. -/
def runPrograms [Query.Interpreter] (fs : FileSystem) (s : Settings) (format : String)
    (directory : Option String) : Report :=
  match converted fs s format with
  | .error f => .failed fs f
  | .ok c => deliver fs directory c

/-! ### Declarations -/

/-- The declarations of documents by their names, as a JSON value. Of two documents of one name the
later one counts. -/
def declarations [Query.Interpreter] (options : Options) (ds : List InputDocument) : Json :=
  .object <| Json.ofMembers <| ds.filterMap fun d ↦
    match Document.load options d.bytes with
    | .ok v => some (d.name, (v.block options).toJson)
    | .error _ => none

/-- The documents that stand for no value. -/
def skipped [Query.Interpreter] (options : Options) (ds : List InputDocument) :
    List Diagnostic :=
  ds.filterMap fun d ↦
    match Document.load options d.bytes with
    | .ok _ => none
    | .error e => some ⟨d.name, e⟩

/-- The events of declaring documents. -/
def declarationEvents [Query.Interpreter] (options : Options) (ds : List InputDocument) :
    List Event :=
  ds.flatMap fun d ↦
    match Document.load options d.bytes with
    | .ok v => v.declarationEvents
    | .error e => [.skipped ⟨d.name, e⟩]

/-- Makes the directory that a file is to be in. -/
def createParent (fs : FileSystem) (path : String) : FileSystem × Option Failure :=
  match Path.parent? path with
  | none => (fs, none)
  | some parent =>
    let (after, e) := fs.createAll parent
    (after, e.map (.create parent))

/-- Writes a text to a file in a directory that may be missing. -/
def writeText (fs : FileSystem) (path text : String) : FileSystem × Option Failure :=
  match createParent fs path with
  | (after, some f) => (after, some f)
  | (after, none) =>
    match after.write path (Utf8.encode text) with
    | .ok done => (done, none)
    | .error e => (after, some (.write path e))

/-- What declarations are made of. -/
def declared (fs : FileSystem) (s : Settings) : Except Failure (Options × List InputDocument) := do
  let options ← s.options fs
  let documents ← Inputs.documents fs s.inputs
  return (options, documents)

/-- Writes the declarations that are asked for. -/
def runDeclarations [Query.Interpreter] (fs : FileSystem) (s : Settings) (file : Option String) :
    Report :=
  match declared fs s with
  | .error f => .failed fs f
  | .ok (options, documents) =>
    let text := (declarations options documents).pretty
    let messages := warning (skipped options documents)
    let events := declarationEvents options documents
    match file with
    | none => { output := text ++ "\n", messages := messages, events := events, files := fs }
    | some path =>
      let (after, failure) := writeText fs path text
      { failure := failure, messages := messages, events := events, files := after }

/-! ### Commands -/

/-- What comes of a command on a file system. A command that is only to be shown does nothing. -/
def Command.run [Query.Interpreter] (fs : FileSystem) (c : Command) : Report :=
  if c.settings.noOp then { messages := c.outline.text, files := fs }
  else
    match c.task with
    | .programs format directory => runPrograms fs c.settings format directory
    | .declarations file => runDeclarations fs c.settings file

end JsonEmbed
