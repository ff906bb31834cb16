import JsonEmbed.Json.Pointer
import JsonEmbed.Options
import JsonEmbed.Query.Run

/-!
# Loading documents

The value that a document stands for under given options: its bytes are read, after one byte-order
mark if there is one, a pointer selects a part, and a query turns that into one value. The
interpreter that runs the query is a parameter.
-/

namespace JsonEmbed

/-- Why a document stands for no value. -/
inductive DocumentError where
  /-- The bytes are no JSON text. -/
  | malformed (error : SyntaxError)
  | pointerMissing (pointer : String)
  | query (error : Query.QueryError)
  /-- The query gave a number of values other than one. -/
  | queryCount (count : Nat)
  deriving DecidableEq, Inhabited

namespace DocumentError

/-- The text of an error. -/
def message : DocumentError → String
  | malformed e => "not a valid JSON file: " ++ e.message
  | pointerMissing p => "JSON pointer `" ++ p ++ "` selects nothing"
  | query e => "jq filter failed" ++ e.detail
  | queryCount n => "jq filter must yield exactly one value, got " ++ Nat.repr n

end DocumentError

namespace Document

/-- The bytes after a byte-order mark at the front. -/
def withoutMark : Bytes → Bytes
  | 0xef :: 0xbb :: 0xbf :: rest => rest
  | bytes => bytes

/-- The part of a value that the options select. -/
def point (options : Options) (v : Json) : Except DocumentError Json :=
  match options.pointer with
  | none => .ok v
  | some p =>
    match v.select? p with
    | some part => .ok part
    | none => .error (.pointerMissing p)

/-- The one value of a query on a value. -/
def querySingle [Query.Interpreter] (text : String) (v : Json) : Except DocumentError Json :=
  match Query.run text v with
  | .error e => .error (.query e)
  | .ok [x] => .ok x
  | .ok xs => .error (.queryCount xs.length)

/-- The value that the options' query gives. -/
def query [Query.Interpreter] (options : Options) (v : Json) : Except DocumentError Json :=
  match options.filter with
  | none => .ok v
  | some text => querySingle text v

/-- The value of a document's bytes. -/
def parse (bytes : Bytes) : Except DocumentError Json :=
  (Json.read (withoutMark bytes)).mapError .malformed

/-- The value that a document stands for. -/
def load [Query.Interpreter] (options : Options) (bytes : Bytes) : Except DocumentError Json := do
  let v ← parse bytes
  let part ← point options v
  query options part

end Document

end JsonEmbed
