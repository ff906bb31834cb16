import JsonEmbed.Json.Basic
import JsonEmbed.Query.Results

/-!
# Interpreters of queries

The language of queries is supplied data. An `Interpreter` decides whether a text is a query, which
does not depend on an input, and what the query gives for an input. Whatever is said about queries
elsewhere is said for every interpreter.

## Two assumptions

* **Results are printed.** A query gives the texts of its values. Nothing is assumed of these: a
  value may nest as deep as it likes, and its text may well be no document.
* **Queries end.** What a query gives for an input is a finite stream, since all of its values are
  collected before one of them is used. A query that goes on forever has no result to speak of.

Both are in the type `Filter`. What an interpreter says about a text that is no query, or about an
error that a query raises, is left out.
-/

namespace JsonEmbed

namespace Query

/-- A use of a name that means nothing, with the kind of what it should have named. -/
structure Unknown where
  name : String
  kind : String
  deriving DecidableEq, Inhabited

/-- Why a text is not accepted as a query. -/
inductive Rejection where
  /-- The text is no query. -/
  | malformed
  /-- The query uses names that mean nothing. -/
  | unknown (names : List Unknown)
  deriving DecidableEq, Inhabited

/-- What a query gives for an input: the printed values in order, up to the end or to an error. -/
abbrev Filter := Json → Results Unit String

/-- An interpreter of queries. -/
class Interpreter where
  /-- The filter that a text stands for. -/
  compile : String → Except Rejection Filter

end Query

end JsonEmbed
