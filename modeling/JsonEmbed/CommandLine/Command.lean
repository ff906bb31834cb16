import JsonEmbed.Options
import JsonEmbed.Text.Outline

/-!
# Commands

What the program can be told to do: to write a program for each input, or to write the declarations
of all inputs as one JSON text. Both are told which inputs are meant and which options to use.
-/

namespace JsonEmbed

/-- What both commands are told. -/
structure Settings where
  /-- A pointer to the part of each document that is meant. -/
  pointer : Option String := none
  /-- A filter for each document. -/
  filter : Option String := none
  /-- The inputs: paths, or patterns of paths. -/
  inputs : List String
  /-- The path of a configuration. -/
  config : Option String := none
  rootName : Option String := none
  nestedStructs : Bool := false
  arrayIndices : Bool := false
  /-- Whether the command is only to be shown. -/
  noOp : Bool := false
  deriving DecidableEq, Inhabited

/-- What to do with the inputs. -/
inductive Task where
  /-- To write programs, to a directory if there is one. -/
  | programs (format : String) (directory : Option String)
  /-- To write the declarations, to a file if there is one. -/
  | declarations (file : Option String)
  deriving DecidableEq, Inhabited

/-- A command. -/
structure Command where
  settings : Settings
  task : Task
  deriving DecidableEq, Inhabited

namespace Settings

/-- Options with what the settings say instead. -/
def override (s : Settings) (options : Options) : Options :=
  { rootName := s.rootName.getD options.rootName
    nestedLayout := if s.nestedStructs then .struct else options.nestedLayout
    arrayInitializer := if s.arrayIndices then .indices else options.arrayInitializer
    pointer := s.pointer.or options.pointer
    filter := s.filter.or options.filter }

/-- The settings on the inputs, shown. -/
def inputOutline (s : Settings) : Outline :=
  .fields "InputSettings"
    [("json_pointer", .ofText? s.pointer),
     ("jq_expr", .ofText? s.filter),
     ("input", .ofTexts s.inputs)]

/-- The settings on the output, shown. -/
def emissionOutline (s : Settings) : Outline :=
  .fields "EmitSettings"
    [("config", .ofText? s.config),
     ("root_name", .ofText? s.rootName),
     ("nested_structs", .ofBool s.nestedStructs),
     ("legacy_array_indices", .ofBool s.arrayIndices)]

end Settings

namespace Command

/-- The fields of a command between those of all settings and the last. -/
def taskFields : Task → List (String × Outline)
  | .programs format directory => [("to", .ofText format), ("out_dir", .ofText? directory)]
  | .declarations file => [("out", .ofText? file)]

/-- A command, shown. -/
def outline (c : Command) : Outline :=
  let (name, fields) :=
    match c.task with
    | .programs _ _ => ("C", "COut")
    | .declarations _ => ("Schema", "SchemaOut")
  .fields "CommandLineInterface"
    [("cmd", .wrap name (.fields fields
      ([("input_settings", c.settings.inputOutline),
        ("emit_settings", c.settings.emissionOutline)] ++ taskFields c.task ++
        [("no_op", .ofBool c.settings.noOp)])))]

end Command

end JsonEmbed
