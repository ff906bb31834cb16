import JsonEmbed.Json.Reader
import JsonEmbed.Query.Interpreter

/-!
# Running queries on documents

A query is compiled and run on a document. Each text that it gives is read back as a document, so
its results obey the same limits as documents do, whatever the interpreter is.
-/

namespace JsonEmbed

namespace Query

/-- Why a query gave no results. -/
inductive QueryError where
  /-- The text is not accepted. -/
  | rejected (why : Rejection) (text : String)
  /-- The query raised an error. -/
  | raised
  /-- A value of the query is no document. -/
  | badOutput (error : SyntaxError)
  deriving DecidableEq, Inhabited

/-- The line of a message about an unknown name. -/
def Unknown.message (text : String) (u : Unknown) : String :=
  "undefined `" ++ u.name ++ "`: " ++ u.kind ++ " in `" ++ text ++ "`\n"

/-- What a message says after naming the query, if it says anything. -/
def QueryError.detail : QueryError → String
  | rejected .malformed _ => ": parse error"
  | rejected (.unknown names) text => ": " ++ String.join (names.map (Unknown.message text))
  | raised => ""
  | badOutput e => ": filter produced non-JSON output: " ++ e.message

/-- Reads back the values of a query, up to the first that is an error or no document. -/
def readBack : Results Unit String → Except QueryError (List Json)
  | .done => .ok []
  | .fail _ => .error .raised
  | .yield text rest =>
    match Json.read (Utf8.encode text) with
    | .error e => .error (.badOutput e)
    | .ok x =>
      match readBack (rest ()) with
      | .ok xs => .ok (x :: xs)
      | .error e => .error e

/-- The results of a query on a document. -/
def run [Interpreter] (text : String) (input : Json) : Except QueryError (List Json) :=
  match Interpreter.compile text with
  | .error why => .error (.rejected why text)
  | .ok filter => readBack (filter input)

end Query

end JsonEmbed
