import JsonEmbed.CommandLine.Command
import JsonEmbed.Text.Split

/-!
# Arguments

How the words of a command line tell a command. A word is a long option, a cluster of short ones, a
plain word, or the mark after which no options come. An option takes its value from the same word or
from the words after it.

The words are taken in order. The values of an option are looked at when the next option is met or
the words end, so of two faults the one that is met first is told, except that a word which means
nothing is told at once.
-/

namespace JsonEmbed

/-- Why the words tell no command to run. -/
inductive UsageError where
  | unknownArgument
  | missingArgument
  /-- A value is missing, or is not one that its option can have. -/
  | invalidValue
  /-- An option is given twice. -/
  | conflict
  /-- An option that takes no value is given one. -/
  | tooManyValues
  | invalidSubcommand
  | missingSubcommand
  /-- The words ask for help. -/
  | help
  /-- The words ask for the version. -/
  | version
  deriving DecidableEq, Inhabited

namespace UsageError

/-- The exit code. To ask for help or the version is no failure. -/
def exitCode : UsageError → Nat
  | help | version => 0
  | _ => 2

end UsageError

namespace Arguments

/-- The name and version of the program, as a line. -/
def versionLine : String :=
  "json-cgen 0.1.0\n"

/-! ### Words -/

/-- What a word is. -/
inductive Word where
  /-- The mark after which no options come. -/
  | mark
  /-- A long option, with a value if there is an equals sign. -/
  | long (name : List Char) (value : Option String)
  /-- Short options. -/
  | short (letters : List Char)
  | plain (text : String)
  deriving DecidableEq, Inhabited

/-- A long option from the text after its dashes. -/
def longWord (s : List Char) : Word :=
  match splitOn '=' s with
  | name :: part :: parts => .long name (some (String.ofList (joinWith '=' (part :: parts))))
  | _ => .long s none

/-- What a word is. -/
def word (s : String) : Word :=
  match s.toList with
  | ['-', '-'] => .mark
  | '-' :: '-' :: cs => longWord cs
  | '-' :: c :: cs => .short (c :: cs)
  | _ => .plain s

/-! ### Options -/

/-- An option that takes values. -/
inductive Setting where
  | pointer
  | filter
  | input
  | config
  | rootName
  | format
  | directory
  | file
  deriving DecidableEq, Inhabited

/-- An option that takes no value. -/
inductive Switch where
  | nestedStructs
  | arrayIndices
  | noOp
  deriving DecidableEq, Inhabited

/-- An option. -/
inductive Argument where
  | setting (s : Setting)
  | switch (s : Switch)
  | help
  deriving DecidableEq, Inhabited

/-- A subcommand. -/
inductive Subcommand where
  | programs
  | declarations
  deriving DecidableEq, Inhabited

/-- Whether the values of an option are paths, which are never empty. -/
def Setting.isPath : Setting → Bool
  | .config | .directory | .file => true
  | _ => false

/-- The options of both subcommands. -/
def sharedOptions : List (String × Argument) :=
  [("json-pointer", .setting .pointer), ("jq-expr", .setting .filter), ("input", .setting .input),
   ("config", .setting .config), ("root-name", .setting .rootName),
   ("nested-structs", .switch .nestedStructs), ("legacy-array-indices", .switch .arrayIndices),
   ("no-op", .switch .noOp), ("help", .help)]

/-- The options of a subcommand. -/
def longOptions : Subcommand → List (String × Argument)
  | .programs => sharedOptions ++ [("to", .setting .format), ("out-dir", .setting .directory)]
  | .declarations => sharedOptions ++ [("out", .setting .file)]

/-- The option with a long name. -/
def longOption? (sub : Subcommand) (name : List Char) : Option Argument :=
  (longOptions sub).lookup (String.ofList name)

/-- The option with a letter. -/
def shortOption? (sub : Subcommand) : Char → Option Argument
  | 'i' => some (.setting .input)
  | 'o' =>
    match sub with
    | .programs => some (.setting .directory)
    | .declarations => some (.setting .file)
  | 'h' => some .help
  | _ => none

/-! ### Values -/

/-- The options that have been given, with their values. -/
structure Given where
  values : List (Setting × List String) := []
  switches : List Switch := []
  deriving DecidableEq, Inhabited

namespace Given

/-- Gives an option its values. Only inputs can be given several values, and more than once. -/
def put (g : Given) (s : Setting) (vs : List String) : Except UsageError Given :=
  if vs = [] then .error .invalidValue
  else if s ≠ .input ∧ (g.values.lookup s).isSome then .error .conflict
  else if s.isPath ∧ "" ∈ vs then .error .invalidValue
  else .ok { g with values := g.values ++ [(s, vs)] }

/-- Turns a switch on. -/
def turnOn (g : Given) (s : Switch) : Except UsageError Given :=
  if s ∈ g.switches then .error .conflict
  else .ok { g with switches := g.switches ++ [s] }

/-- The value of an option that takes one. -/
def value? (g : Given) (s : Setting) : Option String :=
  (g.values.lookup s).bind List.head?

/-- The inputs, in the order in which they are given. -/
def inputs (g : Given) : List String :=
  (g.values.filter fun v ↦ v.1 == .input).flatMap Prod.snd

/-- The settings that are given. -/
def settings (g : Given) : Settings :=
  { pointer := g.value? .pointer
    filter := g.value? .filter
    inputs := g.inputs
    config := g.value? .config
    rootName := g.value? .rootName
    nestedStructs := g.switches.contains .nestedStructs
    arrayIndices := g.switches.contains .arrayIndices
    noOp := g.switches.contains .noOp }

/-- The command that a subcommand becomes. There must be an input. -/
def command (g : Given) (sub : Subcommand) : Except UsageError Command :=
  if g.inputs = [] then .error .missingArgument
  else
    match sub with
    | .programs =>
      .ok ⟨g.settings, .programs ((g.value? .format).getD "c") (g.value? .directory)⟩
    | .declarations => .ok ⟨g.settings, .declarations (g.value? .file)⟩

end Given

/-- An option whose values are still coming, with those that have come. -/
abbrev Pending := Option (Setting × List String)

/-- Gives an option the values that have come. -/
def settle (g : Given) : Pending → Except UsageError Given
  | none => .ok g
  | some (s, vs) => g.put s vs

/-- What an option makes of what has been given, and which values may still come. The value in the
same word, if there is one, is the only one. -/
def meet (g : Given) (pending : Pending) (a : Argument) (attached : Option String) :
    Except UsageError (Given × Pending) :=
  match a, attached with
  | .setting s, none => do
    let g ← settle g pending
    return (g, some (s, []))
  | .setting s, some v => do
    let g ← settle g pending
    let g ← g.put s [v]
    return (g, none)
  | .switch s, none => do
    let g ← settle g pending
    let g ← g.turnOn s
    return (g, none)
  | .help, none => do
    let _ ← settle g pending
    .error .help
  | _, some _ => .error .tooManyValues

/-- What the letters of a short option hold besides the first: nothing, or a value that may come
after an equals sign. -/
def attachedValue? : List Char → Option String
  | [] => none
  | '=' :: cs => some (String.ofList cs)
  | cs => some (String.ofList cs)

/-- What short options make of what has been given. The first that takes a value takes the rest. -/
def meetShort (sub : Subcommand) (g : Given) (pending : Pending) :
    List Char → Except UsageError (Given × Pending)
  | [] => .ok (g, pending)
  | c :: cs =>
    match shortOption? sub c with
    | none => .error .unknownArgument
    | some .help => meet g pending .help none
    | some (.switch s) => do
      let (g, pending) ← meet g pending (.switch s) none
      meetShort sub g pending cs
    | some (.setting s) => meet g pending (.setting s) (attachedValue? cs)

/-- What a plain word makes of what has been given: it is a value of an option that still takes
one. -/
def meetPlain (g : Given) (text : String) : Pending → Except UsageError (Given × Pending)
  | none => .error .unknownArgument
  | some (s, vs) =>
    if s = .input ∨ vs = [] then .ok (g, some (s, vs ++ [text])) else .error .unknownArgument

/-- What is given by the words after a subcommand. -/
def collect (sub : Subcommand) (g : Given) (pending : Pending) :
    List String → Except UsageError Given
  | [] => settle g pending
  | w :: ws =>
    match word w with
    | .mark => if ws = [] then settle g pending else .error .unknownArgument
    | .long name attached =>
      match longOption? sub name with
      | none => .error .unknownArgument
      | some a => do
        let (g, pending) ← meet g pending a attached
        collect sub g pending ws
    | .short letters => do
      let (g, pending) ← meetShort sub g pending letters
      collect sub g pending ws
    | .plain text => do
      let (g, pending) ← meetPlain g text pending
      collect sub g pending ws

/-! ### Commands -/

/-- The command of a subcommand and the words after it. -/
def commandOf (sub : Subcommand) (ws : List String) : Except UsageError Command := do
  let g ← collect sub {} none ws
  g.command sub

/-- The names that can be asked for help on. -/
def subcommandNames : List String :=
  ["c", "schema", "help"]

/-- What it comes to that help is asked for on some words: at most one subcommand. -/
def helpOn : List String → UsageError
  | [] => .help
  | [w] => if w ∈ subcommandNames then .help else .invalidSubcommand
  | _ => .invalidSubcommand

/-- What it comes to that no options are allowed before the first word. -/
def afterMark : List String → UsageError
  | [] => .missingSubcommand
  | w :: _ => if w ∈ subcommandNames then .unknownArgument else .invalidSubcommand

/-- What it comes to that an option is met before any subcommand. -/
def topOption (asked : Option UsageError) (attached : Option String) : UsageError :=
  match asked, attached with
  | none, _ => .unknownArgument
  | some asked, none => asked
  | some _, some _ => .tooManyValues

/-- What a long name asks for before any subcommand. -/
def topLong? (name : List Char) : Option UsageError :=
  [("help", UsageError.help), ("version", .version)].lookup (String.ofList name)

/-- What a letter asks for before any subcommand. -/
def topShort? (letters : List Char) : Option UsageError :=
  letters.head?.bind fun c ↦ [('h', UsageError.help), ('V', .version)].lookup c

/-- The command that words tell. -/
def parse : List String → Except UsageError Command
  | [] => .error .missingSubcommand
  | w :: ws =>
    match word w with
    | .mark => .error (afterMark ws)
    | .long name attached => .error (topOption (topLong? name) attached)
    | .short letters => .error (topOption (topShort? letters) none)
    | .plain "c" => commandOf .programs ws
    | .plain "schema" => commandOf .declarations ws
    | .plain "help" => .error (helpOn ws)
    | .plain _ => .error .invalidSubcommand

end Arguments

end JsonEmbed
