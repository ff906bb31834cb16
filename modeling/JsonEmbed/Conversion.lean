import JsonEmbed.Document
import JsonEmbed.Files.Path
import JsonEmbed.Format
import JsonEmbed.Program

/-!
# Conversions

A batch of documents becomes a batch of programs, one for each document in order. A document that
stands for no value becomes the program with no body and a diagnostic, and does not disturb the
others. Only a target format other than C source fails the whole batch.

What happens on the way is told by events.
-/

namespace JsonEmbed

/-- A document to convert. -/
structure InputDocument where
  name : String
  bytes : Bytes
  deriving DecidableEq, Inhabited

/-- A program with the name of its file. -/
structure OutputDocument where
  name : String
  text : String
  deriving DecidableEq, Inhabited

/-- A document that stands for no value, and why. -/
structure Diagnostic where
  document : String
  error : DocumentError
  deriving DecidableEq, Inhabited

/-- What is told while working. -/
inductive Event where
  | converting (document output : String)
  | emptyProgram (diagnostic : Diagnostic)
  | skipped (diagnostic : Diagnostic)
  /-- The value to declare is of a kind that has nothing to declare. -/
  | rootNotObject (kind : String)
  deriving DecidableEq, Inhabited

/-- The result of a conversion. -/
structure Conversion where
  outputs : List OutputDocument
  diagnostics : List Diagnostic
  events : List Event
  deriving DecidableEq, Inhabited

/-- Why a batch fails as a whole. -/
inductive ConversionError where
  | unsupportedFormat (format : String)
  deriving DecidableEq, Inhabited

namespace ConversionError

/-- The text of an error. -/
def message : ConversionError → String
  | unsupportedFormat f =>
    "unsupported output format `" ++ f ++ "`: this converter only produces C source"

end ConversionError

namespace Event

/-- How serious an event is. -/
def level : Event → String
  | converting _ _ | rootNotObject _ => "DEBUG"
  | emptyProgram _ | skipped _ => "WARN"

/-- What an event says. -/
def message : Event → String
  | converting _ _ => "converting"
  | emptyProgram _ => "emitting empty program"
  | skipped _ => "skipping document"
  | rootNotObject _ => "root is not an object, declaring an empty struct"

/-- The details of an event, each with its name. -/
def details : Event → List (String × String)
  | converting document output => [("document", document), ("output", output)]
  | emptyProgram d | skipped d => [("document", d.document), ("error", d.error.message)]
  | rootNotObject kind => [("kind", kind)]

end Event

namespace Json

/-- The name of a value's kind. -/
def kindName : Json → String
  | null => "null"
  | boolean _ => "boolean"
  | number _ => "number"
  | string _ => "string"
  | array _ => "array"
  | object _ => "object"

/-- The events of declaring a value. -/
def declarationEvents : Json → List Event
  | object _ => []
  | v => [.rootNotObject v.kindName]

end Json

namespace Conversion

/-- The file name for the output of a document: the part of the document's file name before its
first dot, or its stem if that part is empty, with the given extension. A path without a file name
is used as it is. -/
def outputName (input extension : String) : String :=
  let name := (Path.fileName? input).getD input
  let base :=
    match splitOn '.' name.toList with
    | (c :: cs) :: _ => String.ofList (c :: cs)
    | _ => ((Path.fileName? name).map Path.stem).getD name
  base ++ "." ++ extension

/-- The conversion of one document. -/
def ofDocument [Query.Interpreter] (options : Options) (d : InputDocument) : Conversion :=
  let name := outputName d.name FileFormat.cSource.extension
  match Document.load options d.bytes with
  | .ok v => ⟨[⟨name, v.program options⟩], [], .converting d.name name :: v.declarationEvents⟩
  | .error e => ⟨[⟨name, unlines Program.shell⟩], [⟨d.name, e⟩], [.emptyProgram ⟨d.name, e⟩]⟩

/-- One conversion after another. -/
def append (a b : Conversion) : Conversion :=
  ⟨a.outputs ++ b.outputs, a.diagnostics ++ b.diagnostics, a.events ++ b.events⟩

/-- The conversion of a batch. -/
def ofDocuments [Query.Interpreter] (options : Options) (ds : List InputDocument) : Conversion :=
  ds.foldr (fun d rest ↦ (ofDocument options d).append rest) ⟨[], [], []⟩

/-- The conversion of a batch to a format. -/
def run [Query.Interpreter] (options : Options) (format : FileFormat) (ds : List InputDocument) :
    Except ConversionError Conversion :=
  if format = .cSource then .ok (ofDocuments options ds)
  else .error (.unsupportedFormat format.format)

end Conversion

end JsonEmbed
