import JsonEmbed.Query.Fragment.Arithmetic

/-!
# Query terms

The syntax of the fragment as a tree. A path is one term followed by steps, because the steps are
worked out before the term's values are walked: all of a path's indices are known before its first
access.
-/

namespace JsonEmbed

namespace Query

/-- One step of a path, with the terms for what is not known yet. -/
inductive Step (α : Type) where
  /-- The part at an index. -/
  | index (place : α)
  /-- All parts. -/
  | contents
  | sliceFrom (lower : α)
  | sliceTo (upper : α)
  | slice (lower upper : α)
  deriving Inhabited

/-- A query. -/
inductive Term where
  | identity
  | constant (value : Value)
  /-- A string with the values of terms put in: each piece of text stands before a term. -/
  | text (pieces : List (String × Term)) (last : String)
  /-- The array of all values of a term. -/
  | collect (body : Term)
  /-- An object for each choice of keys and values; an entry without a value stands for the input's
  member at its key. -/
  | object (entries : List (Term × Option Term))
  | negate (body : Term)
  | pipe (first second : Term)
  /-- The values of `body` with a variable set to each value of `source`. -/
  | bind (source : Term) (name : String) (body : Term)
  | comma (first second : Term)
  | arithmetic (op : ArithmeticOp) (left right : Term)
  | comparison (op : ComparisonOp) (left right : Term)
  | conjunction (left right : Term)
  | disjunction (left right : Term)
  /-- The true values of the first term, or else all of the second. -/
  | alternative (first second : Term)
  | conditional (condition yes no : Term)
  /-- The values of a term up to an error, and then those of the handler for it. -/
  | attempt (body handler : Term)
  /-- A state threaded through the values of a term. The arguments, of which there must be two, are
  the start and what a value makes of a state. -/
  | reduce (source : Term) (name : String) (arguments : List Term)
  | call (name : String) (arguments : List Term)
  | reference (name : String)
  /-- A term and steps from each of its values; an optional step gives nothing where it fails. -/
  | path (body : Term) (steps : List (Step Term × Bool))
  deriving Inhabited

/-- The operators that stand between two terms. -/
inductive BinaryOp where
  | comma
  | alternative
  | disjunction
  | conjunction
  | comparison (op : ComparisonOp)
  | arithmetic (op : ArithmeticOp)
  deriving DecidableEq, Inhabited

namespace BinaryOp

/-- How tightly an operator binds. -/
def precedence : BinaryOp → Nat
  | comma => 1
  | alternative => 2
  | disjunction => 3
  | conjunction => 4
  | comparison .equal | comparison .notEqual => 5
  | comparison _ => 6
  | arithmetic .add | arithmetic .subtract => 7
  | arithmetic .multiply | arithmetic .divide => 8
  | arithmetic .remainder => 9

/-- The term that an operator makes of two. -/
def apply : BinaryOp → Term → Term → Term
  | comma => .comma
  | alternative => .alternative
  | disjunction => .disjunction
  | conjunction => .conjunction
  | comparison op => .comparison op
  | arithmetic op => .arithmetic op

/-- Applies the operators on the stack that bind at least as tightly as the limit. -/
def collapse (limit : Nat) : List (Term × BinaryOp) → Term → List (Term × BinaryOp) × Term
  | [], right => ([], right)
  | (left, op) :: stack, right =>
    if limit ≤ op.precedence then collapse limit stack (op.apply left right)
    else ((left, op) :: stack, right)

/-- The term of a sequence of operators, which associate to the left. -/
def climb (head : Term) (tail : List (BinaryOp × Term)) : Term :=
  let (stack, last) := tail.foldl
    (fun state item ↦
      let (stack, left) := collapse item.1.precedence state.1 state.2
      ((left, item.1) :: stack, item.2))
    ([], head)
  (collapse 0 stack last).2

end BinaryOp

end Query

end JsonEmbed
