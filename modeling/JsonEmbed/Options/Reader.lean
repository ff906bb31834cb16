import JsonEmbed.Json.Numeral
import JsonEmbed.Number.Format
import JsonEmbed.Json.Writer
import JsonEmbed.Options
import JsonEmbed.Options.Fault
import JsonEmbed.Text.Quoted

/-!
# Reading a configuration

A configuration is a JSON object with any of the options as keys, each at most once, or an array
with the options in order. It is read as it stands, without building a value first, so that every
fault can say on which option it was noticed. Reading stops at the end of the object or array: what
follows is not looked at.
-/

namespace JsonEmbed

namespace Options

open Scanner

/-- What reading a part of a configuration gives, or a fault. -/
abbrev ConfigRead (α : Type) := Except ConfigFault α

/-- The five options. -/
inductive Key where
  | rootName
  | nestedLayout
  | arrayInitializer
  | pointer
  | filter
  deriving DecidableEq, Inhabited

namespace Key

/-- All options in order. -/
def all : List Key :=
  [rootName, nestedLayout, arrayInitializer, pointer, filter]

/-- The spelling of an option in a configuration. -/
def name : Key → String
  | rootName => "root_name"
  | nestedLayout => "nested_layout"
  | arrayInitializer => "array_initializer"
  | pointer => "json_pointer"
  | filter => "jq_expr"

/-- The option with a given spelling. -/
def ofName? (s : String) : Option Key :=
  all.find? fun k ↦ k.name == s

end Key

/-- A fault of the text, noticed on a part. -/
def textFault {α : Type} (path : List ConfigStep) (f : Fault) : ConfigRead α :=
  .error ⟨path, .text f.cause, f.remaining⟩

/-- A fault of the text right before the given bytes. -/
def faultAt {α : Type} (path : List ConfigStep) (rest : Bytes) (cause : Cause) :
    ConfigRead α :=
  .error ⟨path, .text cause, rest.length⟩

/-- A fault of the text in the first of the given bytes. -/
def faultWithin {α : Type} (path : List ConfigStep) (rest : Bytes) (cause : Cause) :
    ConfigRead α :=
  .error ⟨path, .text cause, rest.length - 1⟩

/-- Says on which part a fault of the text was noticed. -/
def noticedOn {α : Type} (path : List ConfigStep) : Except Fault α → ConfigRead α
  | .ok a => .ok a
  | .error f => textFault path f

/-- What a message calls a number. -/
def describeNumber : Number → String
  | .integer i => "integer " ++ ConfigProblem.ticked (decimalText i)
  | .double x => "floating point " ++ ConfigProblem.ticked (FloatFormat.document.text x)

/-- The fault of a value of another type than expected. Keywords, numbers and strings are read to
their end first; of an array or object, not even the bracket is. -/
def wrongType {α : Type} (path : List ConfigStep) (expected : String) (s : Bytes) :
    ConfigRead α :=
  let wrong (found : String) (rest : Bytes) : ConfigRead α :=
    .error ⟨path, .wrongType found expected, rest.length⟩
  let number (negative : Bool) (s : Bytes) : ConfigRead α := do
    let (n, rest) ← noticedOn path (Numeral.unsigned negative s)
    wrong (describeNumber n) rest
  match s with
  | [] => faultAt path [] .expectedValue
  | 0x6e :: s => do wrong "null" (← noticedOn path (keyword ull s))
  | 0x74 :: s => do wrong "boolean `true`" (← noticedOn path (keyword rue s))
  | 0x66 :: s => do wrong "boolean `false`" (← noticedOn path (keyword alse s))
  | 0x2d :: s => number true s
  | 0x22 :: s => do
    let (text, rest) ← noticedOn path (Scanner.string s)
    wrong ("string " ++ quoted text) rest
  | 0x5b :: _ => wrong "sequence" s
  | 0x7b :: _ => wrong "map" s
  | b :: rest =>
    if Numeral.isDigit b then number false (b :: rest) else faultWithin path s .expectedValue

/-- A string. -/
def string (path : List ConfigStep) (expected : String) (s : Bytes) : ConfigRead (String × Bytes) :=
  match skipBlank s with
  | [] => faultAt path [] .endInValue
  | 0x22 :: s => noticedOn path (Scanner.string s)
  | s => wrongType path expected s

/-- A string or null. -/
def stringOrNull (path : List ConfigStep) (s : Bytes) : ConfigRead ((Option String) × Bytes) :=
  match skipBlank s with
  | 0x6e :: s =>
    match keyword ull s with
    | .ok rest => .ok (none, rest)
    | .error f => textFault path f
  | s => do
    let (text, rest) ← string path "a string" s
    return (some text, rest)

/-- Null. -/
def unit (path : List ConfigStep) (s : Bytes) : ConfigRead Bytes :=
  match skipBlank s with
  | [] => faultAt path [] .endInValue
  | 0x6e :: s => noticedOn path (keyword ull s)
  | s => wrongType path "unit" s

/-- One of several names, as a string. -/
def variantName {α : Type} (path : List ConfigStep) (known : List (String × α)) (s : Bytes) :
    ConfigRead ((String × α) × Bytes) := do
  let (name, rest) ← string path "variant identifier" s
  match known.lookup name with
  | some a => return ((name, a), rest)
  | none => .error ⟨path, .unknownVariant name (known.map Prod.fst), rest.length⟩

/-- One of several names, as the key of an object from after its opening brace. An object without a
key lacks a value. -/
def variantKey {α : Type} (path : List ConfigStep) (known : List (String × α)) (s : Bytes) :
    ConfigRead ((String × α) × Bytes) :=
  match skipBlank s with
  | [] => faultAt path [] .endInValue
  | 0x22 :: s => variantName path known (0x22 :: s)
  | 0x7d :: s => faultAt path s .expectedValue
  | s => faultWithin path s .keyNotString

/-- One of several names: a string, or an object with the name as its one key and null as value. -/
def variant {α : Type} (path : List ConfigStep) (known : List (String × α)) (s : Bytes) :
    ConfigRead (α × Bytes) :=
  match skipBlank s with
  | [] => faultAt path [] .endInValue
  | 0x22 :: s => do
    let ((_, a), rest) ← variantName path known (0x22 :: s)
    return (a, rest)
  | 0x7b :: s => do
    let ((name, a), rest) ← variantKey path known s
    let rest ←
      match skipBlank rest with
      | [] => faultAt path [] .endInObject
      | 0x3a :: rest => pure rest
      | rest => faultWithin path rest .expectedColon
    let rest ← unit (path ++ [.key name]) rest
    match skipBlank rest with
    | [] => faultAt path [] .endInObject
    | 0x7d :: rest => return (a, rest)
    | rest => faultAt path rest .expectedValue
  | s => faultWithin path s .expectedValue

/-- The layouts by their spelling. -/
def layouts : List (String × NestedLayout) :=
  [NestedLayout.union, NestedLayout.struct].map fun l ↦ (l.name, l)

/-- The initializers by their spelling. -/
def initializers : List (String × ArrayInitializer) :=
  [ArrayInitializer.values, ArrayInitializer.indices].map fun i ↦ (i.name, i)

/-- Options with one of them set to the value that comes next. -/
def readOption (path : List ConfigStep) (options : Options) (key : Key) (s : Bytes) :
    ConfigRead (Options × Bytes) :=
  match key with
  | .rootName => do
    let (text, rest) ← string path "a string" s
    return ({ options with rootName := text }, rest)
  | .nestedLayout => do
    let (l, rest) ← variant path layouts s
    return ({ options with nestedLayout := l }, rest)
  | .arrayInitializer => do
    let (i, rest) ← variant path initializers s
    return ({ options with arrayInitializer := i }, rest)
  | .pointer => do
    let (p, rest) ← stringOrNull path s
    return ({ options with pointer := p }, rest)
  | .filter => do
    let (f, rest) ← stringOrNull path s
    return ({ options with filter := f }, rest)

/-- The text after the brace that may come next: faults in a key are placed there. -/
def afterBrace (s : Bytes) : Bytes :=
  match skipBlank s with
  | 0x7d :: rest => rest
  | rest => rest

/-- The next key of an object, if there is one, from after its opening brace or a member. -/
def nextKey (first : Bool) (s : Bytes) : ConfigRead (Option String × Bytes) :=
  let path := [ConfigStep.unknown]
  let key (s : Bytes) : ConfigRead (Option String × Bytes) := do
    let (name, rest) ← noticedOn path (Scanner.string s)
    return (some name, rest)
  match skipBlank s with
  | [] => faultAt path [] .endInObject
  | 0x7d :: rest => .ok (none, rest)
  | 0x22 :: rest => if first then key rest else faultAt path rest .expectedObjectEnd
  | 0x2c :: rest =>
    if first then faultAt path rest .keyNotString
    else
      match skipBlank rest with
      | [] => faultAt path [] .endInValue
      | 0x22 :: rest => key rest
      | 0x7d :: rest => faultAt path rest .trailingComma
      | rest => faultWithin path rest .keyNotString
  | rest => faultWithin path rest (if first then .keyNotString else .expectedObjectEnd)

/-- The members of an object. The bound is on their number: each sets another option, and one that
is repeated ends the reading. -/
def members : Nat → List Key → Options → Bytes → ConfigRead (Options × Bytes)
  | 0, _, _, s => faultAt [.unknown] s .endInObject
  | bound + 1, seen, options, s => do
    let (name, rest) ← nextKey seen.isEmpty s
    match name with
    | none => return (options, rest)
    | some name =>
      match Key.ofName? name with
      | none =>
        .error ⟨[.key name], .unknownKey name (Key.all.map Key.name), (afterBrace rest).length⟩
      | some key =>
        if key ∈ seen then .error ⟨[], .repeatedKey name, (afterBrace rest).length⟩
        else do
          let rest ←
            match skipBlank rest with
            | [] => faultAt [] [] .endInObject
            | 0x3a :: rest => pure rest
            | rest => faultWithin [] rest .expectedColon
          let (options, rest) ← readOption [.key name] options key rest
          members bound (key :: seen) options rest

/-- The end of an array of which all options have been read. -/
def arrayEnd (s : Bytes) : ConfigRead Bytes :=
  match skipBlank s with
  | [] => faultAt [] [] .endInList
  | 0x5d :: rest => .ok rest
  | 0x2c :: rest =>
    match skipBlank rest with
    | 0x5d :: rest => faultAt [] rest .trailingComma
    | rest => faultWithin [] rest .trailingCharacters
  | rest => faultWithin [] rest .trailingCharacters

/-- The elements of an array from the option with the given index on; missing ones keep their
defaults. -/
def elements : List Key → Nat → Options → Bytes → ConfigRead (Options × Bytes)
  | [], _, options, s => do
    let rest ← arrayEnd s
    return (options, rest)
  | key :: keys, index, options, s =>
    let element (s : Bytes) : ConfigRead (Options × Bytes) := do
      let (options, rest) ← readOption [.element index] options key s
      elements keys (index + 1) options rest
    match skipBlank s with
    | [] => faultAt [] [] .endInList
    | 0x5d :: rest => .ok (options, rest)
    | 0x2c :: rest =>
      if index = 0 then element (0x2c :: rest)
      else
        match skipBlank rest with
        | [] => faultAt [] [] .endInValue
        | 0x5d :: rest => faultAt [] rest .trailingComma
        | rest => element rest
    | rest => if index = 0 then element rest else faultWithin [] rest .expectedListEnd

/-- A configuration and the text after it. -/
def configuration (s : Bytes) : ConfigRead (Options × Bytes) :=
  match skipBlank s with
  | [] => faultAt [] [] .endInValue
  | 0x5b :: rest => elements Key.all 0 {} rest
  | 0x7b :: rest => members (Key.all.length + 1) [] {} rest
  | s => wrongType [] "struct EmitOptions" s

/-- The options of a configuration text. -/
def read (bytes : Bytes) : Except ConfigError Options :=
  match configuration bytes with
  | .ok (options, _) => .ok options
  | .error f => .error (.ofFault bytes f)

/-- The options of a configuration that is at hand as a string. -/
def readText (text : String) : Except ConfigError Options :=
  read (Utf8.encode text)

/-- The options as a JSON object. -/
def toJson (options : Options) : Json :=
  .object
    [(Key.rootName.name, .string options.rootName),
     (Key.nestedLayout.name, .string options.nestedLayout.name),
     (Key.arrayInitializer.name, .string options.arrayInitializer.name),
     (Key.pointer.name, (options.pointer.map Json.string).getD .null),
     (Key.filter.name, (options.filter.map Json.string).getD .null)]

end Options

end JsonEmbed
