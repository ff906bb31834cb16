import JsonEmbed.Query.Fragment.Term
import JsonEmbed.Query.Fragment.Token

/-!
# Parsing queries

`Term.parse?` reads a whole query of the fragment. A term is a sequence of operands and operators,
and may go on with a pipe or a variable binding, which reach as far to the right as they can. Inside
the members of an object the comma is no operator. A word that begins no construct calls a function
wherever a term may stand, even if it has a meaning elsewhere.

The functions descend on a bound: between two tokens at most three calls take none, so four times
the number of tokens is enough.
-/

namespace JsonEmbed

namespace Query

/-- A parser takes tokens from the front of a list. -/
abbrev Parser := StateT (List Token) Option

namespace Parser

/-- The next token, which stays. -/
def peek : Parser (Option Token) := do
  return (← get).head?

/-- The next token. -/
def next : Parser Token := do
  match ← get with
  | t :: ts => do
    set ts
    return t
  | [] => failure

/-- Takes the given token, which must be next. -/
def expect (t : Token) : Parser Unit := do
  let u ← next
  if u = t then return () else failure

/-- Takes the given token if it is next, and says whether it was. -/
def accept (t : Token) : Parser Bool := do
  if (← peek) = some t then do
    let _ ← next
    return true
  else return false

/-- The name of a variable. -/
def variableName : Parser String := do
  match ← next with
  | .reference name => return name
  | _ => failure

/-- The operator of a symbol or word, if it is one. -/
def operator? (comma : Bool) : Token → Option BinaryOp
  | .symbol "," => if comma then some .comma else none
  | .symbol "//" => some .alternative
  | .word "or" => some .disjunction
  | .word "and" => some .conjunction
  | .symbol "==" => some (.comparison .equal)
  | .symbol "!=" => some (.comparison .notEqual)
  | .symbol "<" => some (.comparison .less)
  | .symbol "<=" => some (.comparison .lessOrEqual)
  | .symbol ">" => some (.comparison .greater)
  | .symbol ">=" => some (.comparison .greaterOrEqual)
  | .symbol "+" => some (.arithmetic .add)
  | .symbol "-" => some (.arithmetic .subtract)
  | .symbol "*" => some (.arithmetic .multiply)
  | .symbol "/" => some (.arithmetic .divide)
  | .symbol "%" => some (.arithmetic .remainder)
  | _ => none

/-- The words that begin a construct and so cannot name a function. -/
def constructs : List String :=
  ["def", "if", "try", "label", "break", "reduce", "foreach"]

/-- The words that begin a declaration when they begin a query. -/
def declarations : List String :=
  ["module", "import", "include"]

/-- A string constant. -/
def stringTerm (s : String) : Term :=
  .constant (.string s)

mutual

/-- A term as far as it goes. -/
def term : Nat → Bool → Parser Term
  | 0, _ => failure
  | bound + 1, comma => do
    let head ← atom bound
    let tail ← operands bound comma
    let t := BinaryOp.climb head tail
    if ← accept (.symbol "|") then
      return .pipe t (← term bound comma)
    else if ← accept (.word "as") then
      let name ← variableName
      expect (.symbol "|")
      return .bind t name (← term bound comma)
    else return t

/-- Operators, each with the operand after it. -/
def operands : Nat → Bool → Parser (List (BinaryOp × Term))
  | 0, _ => failure
  | bound + 1, comma => do
    match (← peek).bind (operator? comma) with
    | none => return []
    | some op =>
      let _ ← next
      let t ← atom bound
      return (op, t) :: (← operands bound comma)

/-- A term without operators, with the steps after it. -/
def atom : Nat → Parser Term
  | 0 => failure
  | bound + 1 => do
    match ← next with
    | .symbol "-" => return .negate (← atom bound)
    | .word "if" => withSteps bound (← conditional bound)
    | .word "try" =>
      let body ← atom bound
      if ← accept (.word "catch") then return .attempt body (← atom bound)
      else return .attempt body (.call "empty" [])
    | .word "reduce" =>
      let source ← atom bound
      expect (.word "as")
      let name ← variableName
      withSteps bound (.reduce source name (← arguments bound))
    | .word name =>
      if name ∈ constructs then failure
      else withSteps bound (.call name (← arguments bound))
    | .reference name => withSteps bound (.reference name)
    | .numeral text => withSteps bound (.constant (.ofNumeral text))
    | .quoteStart =>
      let (pieces, last) ← pieces bound ""
      withSteps bound (.text pieces last)
    | .opening '(' =>
      let t ← term bound true
      expect (.closing ')')
      withSteps bound t
    | .opening '[' =>
      if ← accept (.closing ']') then withSteps bound (.constant (.array none []))
      else
        let t ← term bound true
        expect (.closing ']')
        withSteps bound (.collect t)
    | .opening '\x7b' =>
      if ← accept (.closing '\x7d') then withSteps bound (.constant (.object none []))
      else withSteps bound (.object (← entries bound))
    | .field name => withStep bound .identity (.index (stringTerm name))
    | .symbol "." =>
      if ← accept .quoteStart then
        let (pieces, last) ← pieces bound ""
        withStep bound .identity (.index (.text pieces last))
      else withSteps bound .identity
    | _ => failure

/-- A conditional from after its first word. -/
def conditional : Nat → Parser Term
  | 0 => failure
  | bound + 1 => do
    let condition ← term bound true
    expect (.word "then")
    let yes ← term bound true
    match ← next with
    | .word "elif" => return .conditional condition yes (← conditional bound)
    | .word "else" =>
      let no ← term bound true
      expect (.word "end")
      return .conditional condition yes no
    | .word "end" => return .conditional condition yes .identity
    | _ => failure

/-- The arguments in brackets, if there are brackets. -/
def arguments : Nat → Parser (List Term)
  | 0 => failure
  | bound + 1 => do
    if ← accept (.opening '(') then
      let head ← term bound true
      return head :: (← otherArguments bound)
    else return []

/-- The arguments after the first one, up to the closing bracket. -/
def otherArguments : Nat → Parser (List Term)
  | 0 => failure
  | bound + 1 => do
    if ← accept (.symbol ";") then
      let head ← term bound true
      return head :: (← otherArguments bound)
    else
      expect (.closing ')')
      return []

/-- A string from after its opening quote, with the text read since the last term. -/
def pieces : Nat → String → Parser (List (String × Term) × String)
  | 0, _ => failure
  | bound + 1, before => do
    match ← next with
    | .chunk s => pieces bound (before ++ s)
    | .quoteEnd => return ([], before)
    | .insertion =>
      let t ← term bound true
      expect (.closing ')')
      let (rest, last) ← pieces bound ""
      return ((before, t) :: rest, last)
    | _ => failure

/-- The entries of an object from after the opening brace to the closing one. A comma may stand
after the last. -/
def entries : Nat → Parser (List (Term × Option Term))
  | 0 => failure
  | bound + 1 => do
    let head ← entry bound
    if ← accept (.symbol ",") then
      if ← accept (.closing '\x7d') then return [head]
      else return head :: (← entries bound)
    else
      expect (.closing '\x7d')
      return [head]

/-- A key and its value. A name or string may stand alone for the member at it, and a variable alone
for its value at its name. -/
def entry : Nat → Parser (Term × Option Term)
  | 0 => failure
  | bound + 1 => do
    match ← next with
    | .opening '(' =>
      let key ← term bound true
      expect (.closing ')')
      expect (.symbol ":")
      return (key, some (← term bound false))
    | .word name => return (stringTerm name, ← entryValue bound)
    | .quoteStart =>
      let (pieces, last) ← pieces bound ""
      return (.text pieces last, ← entryValue bound)
    | .reference name =>
      match ← entryValue bound with
      | none => return (stringTerm (name.drop 1).toString, some (.reference name))
      | value => return (.reference name, value)
    | _ => failure

/-- The value after a colon, if there is one. -/
def entryValue : Nat → Parser (Option Term)
  | 0 => failure
  | bound + 1 => do
    if ← accept (.symbol ":") then return some (← term bound false)
    else return none

/-- Question marks: whether there are any. -/
def optional : Nat → Parser Bool
  | 0 => failure
  | bound + 1 => do
    if ← accept (.symbol "?") then
      let _ ← optional bound
      return true
    else return false

/-- Steps of a path, each with the question marks after it. -/
def steps : Nat → Parser (List (Step Term × Bool))
  | 0 => failure
  | bound + 1 => do
    match ← get with
    | .field name :: ts =>
      set ts
      let mark ← optional bound
      return (.index (stringTerm name), mark) :: (← steps bound)
    | .symbol "." :: .quoteStart :: ts =>
      set ts
      let (pieces, last) ← pieces bound ""
      let mark ← optional bound
      return (.index (.text pieces last), mark) :: (← steps bound)
    | .opening '[' :: ts =>
      set ts
      let step ← bracketed bound
      let mark ← optional bound
      return (step, mark) :: (← steps bound)
    | _ => return []

/-- A step from after its opening bracket. -/
def bracketed : Nat → Parser (Step Term)
  | 0 => failure
  | bound + 1 => do
    if ← accept (.closing ']') then return .contents
    else if ← accept (.symbol ":") then
      let upper ← term bound true
      expect (.closing ']')
      return .sliceTo upper
    else
      let t ← term bound true
      if ← accept (.symbol ":") then
        if ← accept (.closing ']') then return .sliceFrom t
        else
          let upper ← term bound true
          expect (.closing ']')
          return .slice t upper
      else
        expect (.closing ']')
        return .index t

/-- A term with the steps after it that begin with the given one. -/
def withStep : Nat → Term → Step Term → Parser Term
  | 0, _, _ => failure
  | bound + 1, t, step => do
    let mark ← optional bound
    return .path t ((step, mark) :: (← steps bound))

/-- A term with the question marks and the steps after it. -/
def withSteps : Nat → Term → Parser Term
  | 0, _ => failure
  | bound + 1, t => do
    let t := if ← optional bound then .attempt t (.call "empty" []) else t
    match ← steps bound with
    | [] => return t
    | ss => return .path t ss

end

end Parser

/-- The term of a query text, if it is one. -/
def Term.parse? (text : String) : Option Term := do
  let tokens ← Token.scan text
  match tokens with
  | .word name :: _ => if name ∈ Parser.declarations then none
  | _ => pure ()
  let (t, rest) ← (Parser.term (4 * tokens.length + 4) true).run tokens
  if rest.isEmpty then some t else none

end Query

end JsonEmbed
