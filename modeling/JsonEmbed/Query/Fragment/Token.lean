/-!
# Query tokens

The text of a query as a flat list of tokens. Brackets are tokens of their own, checked to match by
a stack; a string with terms put in is an opening quote, chunks of text, the tokens of each term
between an opening and a closing token, and a closing quote. `Token.scan` gives no tokens at all for
a text that has a bad character, number, string or bracket anywhere.
-/

namespace JsonEmbed

namespace Query

/-- A token of a query. -/
inductive Token where
  | word (name : String)
  /-- A variable, with its dollar sign. -/
  | reference (name : String)
  | numeral (text : String)
  /-- A dot and the name of a member. -/
  | field (name : String)
  | symbol (text : String)
  | opening (bracket : Char)
  | closing (bracket : Char)
  | quoteStart
  | chunk (text : String)
  /-- The start of a term inside a string; the bracket that closes it is a closing one. -/
  | insertion
  | quoteEnd
  deriving DecidableEq, Inhabited

namespace Token

/-- White space, of all scripts. -/
def isSpace (c : Char) : Bool :=
  let n := c.toNat
  (9 ≤ n && n ≤ 13) || n == 0x20 || n == 0x85 || n == 0xa0 || n == 0x1680 ||
    (0x2000 ≤ n && n ≤ 0x200a) || n == 0x2028 || n == 0x2029 || n == 0x202f || n == 0x205f ||
    n == 0x3000

/-- Letters and the underscore of ASCII. -/
def startsName (c : Char) : Bool :=
  c.isAlpha || c == '_'

/-- Letters, digits and the underscore of ASCII. -/
def inName (c : Char) : Bool :=
  c.isAlphanum || c == '_'

/-- The characters that operators begin with. -/
def startsOperator (c : Char) : Bool :=
  "|=!<>+-*/%".toList.contains c

/-- The characters that operators go on with. A minus sign begins an operator of its own, so that a
negative number may follow any operator. -/
def inOperator (c : Char) : Bool :=
  startsOperator c && c != '-'

/-- The text after a comment. A line that ends with an odd number of backslashes goes on in the
next one; `odd` says whether an odd number stands right before. -/
def skipComment (odd : Bool) : List Char → List Char
  | [] => []
  | '\n' :: cs => if odd then skipComment false cs else cs
  | '\r' :: '\n' :: cs => if odd then skipComment false cs else cs
  | '\\' :: cs => skipComment (!odd) cs
  | _ :: cs => skipComment false cs

/-- At least one digit. -/
def digits? (cs : List Char) : Option (List Char × List Char) :=
  let ds := cs.takeWhile Char.isDigit
  if ds.isEmpty then none else some (ds, cs.dropWhile Char.isDigit)

/-- A point and digits after it, if there is a point. -/
def fraction? : List Char → Option (List Char × List Char)
  | '.' :: cs => (digits? cs).map fun (ds, rest) ↦ ('.' :: ds, rest)
  | cs => some ([], cs)

/-- An exponent, if there is its letter. -/
def exponent? : List Char → Option (List Char × List Char)
  | c :: cs =>
    if c = 'e' ∨ c = 'E' then
      match cs with
      | s :: rest =>
        if s = '+' ∨ s = '-' then (digits? rest).map fun (ds, rest) ↦ (c :: s :: ds, rest)
        else (digits? cs).map fun (ds, rest) ↦ (c :: ds, rest)
      | [] => none
    else some ([], c :: cs)
  | [] => some ([], [])

/-- A number and the text after it. -/
def number? (cs : List Char) : Option (String × List Char) := do
  let (whole, cs) ← digits? cs
  let (fraction, cs) ← fraction? cs
  let (exponent, cs) ← exponent? cs
  return (String.ofList (whole ++ fraction ++ exponent), cs)

/-- The value of a hexadecimal digit. -/
def hexDigit? (c : Char) : Option Nat :=
  if c.isDigit then some (c.toNat - 0x30)
  else if 'a' ≤ c ∧ c ≤ 'f' then some (c.toNat - 0x61 + 10)
  else if 'A' ≤ c ∧ c ≤ 'F' then some (c.toNat - 0x41 + 10)
  else none

/-- The character of an escape and the text after it, from after the backslash. -/
def escape? : List Char → Option (Char × List Char)
  | '"' :: cs => some ('"', cs)
  | '\\' :: cs => some ('\\', cs)
  | '/' :: cs => some ('/', cs)
  | 'b' :: cs => some ('\x08', cs)
  | 'f' :: cs => some ('\x0c', cs)
  | 'n' :: cs => some ('\n', cs)
  | 'r' :: cs => some ('\r', cs)
  | 't' :: cs => some ('\t', cs)
  | 'u' :: a :: b :: c :: d :: cs => do
    let a ← hexDigit? a
    let b ← hexDigit? b
    let c ← hexDigit? c
    let d ← hexDigit? d
    let code := ((a * 16 + b) * 16 + c) * 16 + d
    if h : code.isValidChar then some (Char.ofNatAux code h, cs) else none
  | _ => none

/-- What the scanner is inside of. -/
inductive Context where
  | bracket (closing : Char)
  | text
  | insertion
  deriving DecidableEq, Inhabited

/-- Puts a chunk of text in front of tokens, unless it is empty. The characters come last first. -/
def chunked (reversed : List Char) (tokens : List Token) : List Token :=
  if reversed.isEmpty then tokens else chunk (String.ofList reversed.reverse) :: tokens

/-- The tokens of a text. Each step takes at least one character, so the length of the text bounds
their number. The characters of the current chunk, last first, are used inside a string alone. -/
def scanWithin : Nat → List Context → List Char → List Char → Option (List Token)
  | _, stack, _, [] => if stack.isEmpty then some [] else none
  | 0, _, _, _ :: _ => none
  | bound + 1, .text :: stack, current, c :: cs =>
    if c = '"' then do
      let tokens ← scanWithin bound stack [] cs
      return chunked current (quoteEnd :: tokens)
    else if c = '\\' then
      if cs.head? = some '(' then do
        let tokens ← scanWithin bound (.insertion :: .text :: stack) [] (cs.drop 1)
        return chunked current (insertion :: tokens)
      else do
        let (x, cs) ← escape? cs
        scanWithin bound (.text :: stack) (x :: current) cs
    else scanWithin bound (.text :: stack) (c :: current) cs
  | bound + 1, stack, _, c :: cs =>
    if isSpace c then scanWithin bound stack [] cs
    else if c = '#' then scanWithin bound stack [] (skipComment false cs)
    else if startsName c then do
      let tokens ← scanWithin bound stack [] (cs.dropWhile inName)
      return word (String.ofList (c :: cs.takeWhile inName)) :: tokens
    else if c = '$' then
      match cs with
      | d :: rest =>
        if startsName d then do
          let tokens ← scanWithin bound stack [] (rest.dropWhile inName)
          return .reference (String.ofList (c :: d :: rest.takeWhile inName)) :: tokens
        else none
      | [] => none
    else if c.isDigit then do
      let (text, cs) ← number? (c :: cs)
      let tokens ← scanWithin bound stack [] cs
      return numeral text :: tokens
    else if c = '.' then
      match cs with
      | d :: rest =>
        if d = '.' then do
          let tokens ← scanWithin bound stack [] rest
          return symbol ".." :: tokens
        else if startsName d then do
          let tokens ← scanWithin bound stack [] (rest.dropWhile inName)
          return field (String.ofList (d :: rest.takeWhile inName)) :: tokens
        else do
          let tokens ← scanWithin bound stack [] (d :: rest)
          return symbol "." :: tokens
      | [] => do
        let tokens ← scanWithin bound stack [] []
        return symbol "." :: tokens
    else if startsOperator c then do
      let tokens ← scanWithin bound stack [] (cs.dropWhile inOperator)
      return symbol (String.ofList (c :: cs.takeWhile inOperator)) :: tokens
    else if c = ':' ∨ c = ';' ∨ c = ',' ∨ c = '?' then do
      let tokens ← scanWithin bound stack [] cs
      return symbol (String.ofList [c]) :: tokens
    else if c = '"' then do
      let tokens ← scanWithin bound (.text :: stack) [] cs
      return quoteStart :: tokens
    else if c = '(' ∨ c = '[' ∨ c = '\x7b' then do
      let close := if c = '(' then ')' else if c = '[' then ']' else '\x7d'
      let tokens ← scanWithin bound (.bracket close :: stack) [] cs
      return opening c :: tokens
    else
      match stack with
      | .bracket close :: rest =>
        if c = close then do
          let tokens ← scanWithin bound rest [] cs
          return closing c :: tokens
        else none
      | .insertion :: rest =>
        if c = ')' then do
          let tokens ← scanWithin bound rest [] cs
          return closing c :: tokens
        else none
      | _ => none

/-- The tokens of a query. -/
def scan (text : String) : Option (List Token) :=
  scanWithin text.length [] [] text.toList

end Token

end Query

end JsonEmbed
