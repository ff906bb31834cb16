import JsonEmbed.Json.Basic
import JsonEmbed.Text.Split

/-!
# JSON pointers

A pointer is empty, or a slash before each of its tokens. A token names a member of an object or,
in plain decimal without leading zeros, an element of an array. Inside a token `~1` stands for a
slash and `~0` for a tilde.
-/

namespace JsonEmbed

namespace Pointer

/-- Replaces each occurrence of a two-character escape. -/
def unescape (escaped plain : Char) : List Char → List Char
  | [] => []
  | [c] => [c]
  | c :: d :: cs =>
    if c = '~' ∧ d = escaped then plain :: unescape escaped plain cs
    else c :: unescape escaped plain (d :: cs)

/-- What a token says: slashes are put back first, then tildes. -/
def decode (token : List Char) : List Char :=
  unescape '0' '~' (unescape '1' '/' token)

/-- The tokens of a pointer; a text that is neither empty nor starts with a slash is none. -/
def tokens? (pointer : String) : Option (List String) :=
  match pointer.toList with
  | [] => some []
  | c :: cs => if c = '/' then some ((splitOn '/' cs).map (String.ofList ∘ decode)) else none

/-- How a token is written. -/
def encode (token : List Char) : List Char :=
  token.flatMap fun c ↦ if c = '~' then ['~', '0'] else if c = '/' then ['~', '1'] else [c]

/-- The element that a token names: decimal digits without a leading zero. -/
def index? (token : String) : Option Nat :=
  let cs := token.toList
  if cs ≠ [] ∧ cs.all Char.isDigit ∧ (cs = ['0'] ∨ cs.head? ≠ some '0') then
    some (Nat.ofDigitChars 10 cs 0)
  else none

end Pointer

namespace Json

/-- The value one token further down. -/
def child? (token : String) : Json → Option Json
  | object ms => ms.lookup token
  | array xs => do xs[← Pointer.index? token]?
  | _ => none

/-- The value that a list of tokens leads to. -/
def follow? : List String → Json → Option Json
  | [], v => some v
  | token :: tokens, v => do follow? tokens (← v.child? token)

/-- The value that a pointer selects. -/
def select? (pointer : String) (v : Json) : Option Json := do
  v.follow? (← Pointer.tokens? pointer)

end Json

end JsonEmbed
