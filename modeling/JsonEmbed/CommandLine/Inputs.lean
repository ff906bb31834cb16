import JsonEmbed.CommandLine.Command
import JsonEmbed.Conversion
import JsonEmbed.Files.Expansion
import JsonEmbed.Options.Reader

/-!
# Inputs of a command

What a command reads before it does anything: its options, from a configuration if there is one, and
its documents. An input with wildcards stands for all paths that are meant, and there must be one.
All inputs are looked up before the first is read.
-/

namespace JsonEmbed

/-- Why a configuration cannot be used. -/
inductive ConfigFailure where
  | unreadable (cause : FileError)
  | invalid (error : ConfigError)
  deriving DecidableEq, Inhabited

/-- Why a command fails. -/
inductive Failure where
  | conversion (error : ConversionError)
  | config (path : String) (cause : ConfigFailure)
  | pattern (error : PatternError)
  /-- A pattern means nothing that is there. -/
  | noMatch (input : String)
  | source (path : String) (cause : FileError)
  | create (path : String) (cause : FileError)
  | write (path : String) (cause : FileError)
  deriving DecidableEq, Inhabited

namespace Failure

/-- The text of a failure. The cause of an unreadable configuration is told twice: once as a part
of the message and once as what lies behind it. -/
def message : Failure → String
  | conversion e => e.message
  | config path (.unreadable e) =>
    "failed to read config " ++ path ++ ": " ++ e.message ++ ": " ++ e.message
  | config path (.invalid e) => "invalid config " ++ path ++ ": " ++ e.message
  | pattern e => "failed to resolve input file paths: " ++ e.message
  | noMatch input =>
    "failed to resolve input file paths: glob pattern matched no files: " ++ input
  | source path e => "failed to read source file " ++ path ++ ": " ++ e.message
  | create path e => "failed to create " ++ path ++ ": " ++ e.message
  | write path e => "failed to write " ++ path ++ ": " ++ e.message

end Failure

namespace Settings

/-- The options that a configuration says, or the default ones. -/
def baseOptions (fs : FileSystem) : Option String → Except Failure Options
  | none => .ok {}
  | some path => do
    let bytes ← (fs.read path).mapError fun e ↦ .config path (.unreadable e)
    (Options.read bytes).mapError fun e ↦ .config path (.invalid e)

/-- The options that the settings come to. -/
def options (fs : FileSystem) (s : Settings) : Except Failure Options :=
  s.override <$> baseOptions fs s.config

end Settings

namespace Inputs

/-- Whether an input is a pattern. A brace makes it one, though no pattern gives it a meaning. -/
def isPattern (input : String) : Bool :=
  input.toList.any fun c ↦ c == '*' || c == '?' || c == '[' || c == '\x7b'

/-- The paths that an input stands for. -/
def pathsOf (fs : FileSystem) (input : String) : Except Failure (List String) :=
  if isPattern input then
    match PathPattern.read input with
    | .error e => .error (.pattern e)
    | .ok p => if p.paths fs = [] then .error (.noMatch input) else .ok (p.paths fs)
  else .ok [input]

/-- The paths that inputs stand for. -/
def resolve (fs : FileSystem) : List String → Except Failure (List String)
  | [] => .ok []
  | input :: inputs => do
    let paths ← pathsOf fs input
    return paths ++ (← resolve fs inputs)

/-- The documents at paths, named after them. -/
def readAll (fs : FileSystem) : List String → Except Failure (List InputDocument)
  | [] => .ok []
  | path :: paths => do
    let bytes ← (fs.read path).mapError (.source path)
    return ⟨path, bytes⟩ :: (← readAll fs paths)

/-- The documents that inputs stand for. -/
def documents (fs : FileSystem) (inputs : List String) : Except Failure (List InputDocument) := do
  let paths ← resolve fs inputs
  readAll fs paths

end Inputs

end JsonEmbed
