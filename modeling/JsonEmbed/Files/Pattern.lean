import JsonEmbed.Text.Split

/-!
# Patterns of names

A pattern says which names are meant. A question mark stands for any character, an asterisk for any
characters, and brackets for a character in, or with an exclamation mark not in, one of some ranges.
Two asterisks stand for any number of directories and must be a piece of the path of their own.

`Pattern.read` says at which character a pattern is at fault, counted from zero. `Pattern.accepts`
says whether a name is meant.
-/

namespace JsonEmbed

/-- A part of a pattern. -/
inductive Wildcard where
  /-- The character itself. -/
  | char (c : Char)
  | anyChar
  | anyText
  | directories
  /-- A character from one of the ranges, ends included. -/
  | within (ranges : List (Char × Char))
  /-- A character from none of the ranges. -/
  | outside (ranges : List (Char × Char))
  deriving DecidableEq, Inhabited

/-- A pattern of names. -/
abbrev Pattern := List Wildcard

/-- What can be wrong with a pattern. -/
inductive PatternProblem where
  | wildcards
  /-- Two asterisks that are not a piece of their own. -/
  | directories
  /-- Brackets that are empty or not closed. -/
  | range
  deriving DecidableEq, Inhabited

/-- A fault in a pattern and the character that it was noticed at. -/
structure PatternError where
  position : Nat
  problem : PatternProblem
  deriving DecidableEq, Inhabited

namespace PatternProblem

/-- The wording of a problem. -/
def message : PatternProblem → String
  | wildcards => "wildcards are either regular `*` or recursive `**`"
  | directories => "recursive wildcards must form a single path component"
  | range => "invalid range pattern"

end PatternProblem

namespace PatternError

/-- The text of an error. -/
def message (e : PatternError) : String :=
  "Pattern syntax error near position " ++ Nat.repr e.position ++ ": " ++ e.problem.message

end PatternError

namespace Pattern

/-! ### Reading -/

/-- The ranges that are listed between brackets. A single character is a range of its own. -/
def ranges : List Char → List (Char × Char)
  | low :: '-' :: high :: cs => (low, high) :: ranges cs
  | c :: cs => (c, c) :: ranges cs
  | [] => []

/-- The text up to a closing bracket, and the text after it. -/
def upToBracket : List Char → Option (List Char × List Char)
  | [] => none
  | c :: cs =>
    if c = ']' then some ([], cs) else (upToBracket cs).map fun (inner, rest) ↦ (c :: inner, rest)

/-- What is listed between brackets, and the text after them. A closing bracket at the front is
listed itself. -/
def listed? : List Char → Option (List Char × List Char)
  | [] => none
  | c :: cs => (upToBracket cs).map fun (inner, rest) ↦ (c :: inner, rest)

/-- The wildcard that an opening bracket before this text begins, and the text after it. -/
def class? : List Char → Option (Wildcard × List Char)
  | '!' :: cs => (listed? cs).map fun (inner, rest) ↦ (.outside (ranges inner), rest)
  | cs => (listed? cs).map fun (inner, rest) ↦ (.within (ranges inner), rest)

theorem length_of_upToBracket {s inner rest : List Char} (h : upToBracket s = some (inner, rest)) :
    rest.length < s.length := by
  induction s generalizing inner with
  | nil => simp [upToBracket] at h
  | cons c cs ih =>
    rw [upToBracket] at h
    split at h
    · simp only [Option.some.injEq, Prod.mk.injEq] at h
      simp [h.2]
    · obtain ⟨⟨inner', rest'⟩, hs, heq⟩ := Option.map_eq_some_iff.1 h
      obtain ⟨-, rfl⟩ := Prod.mk.inj heq
      exact Nat.lt_succ_of_lt (ih hs)

theorem length_of_listed? {s inner rest : List Char} (h : listed? s = some (inner, rest)) :
    rest.length < s.length := by
  cases s with
  | nil => simp [listed?] at h
  | cons c cs =>
    obtain ⟨⟨inner', rest'⟩, hs, heq⟩ := Option.map_eq_some_iff.1 h
    obtain ⟨-, rfl⟩ := Prod.mk.inj heq
    exact Nat.lt_succ_of_lt (length_of_upToBracket hs)

/-- A class uses up text. -/
theorem length_of_class? {s rest : List Char} {w : Wildcard} (h : class? s = some (w, rest)) :
    rest.length < s.length := by
  rw [class?.eq_def] at h
  split at h
  · obtain ⟨⟨inner, rest'⟩, hs, heq⟩ := Option.map_eq_some_iff.1 h
    obtain ⟨-, rfl⟩ := Prod.mk.inj heq
    exact Nat.lt_succ_of_lt (length_of_listed? hs)
  · obtain ⟨⟨inner, rest'⟩, hs, heq⟩ := Option.map_eq_some_iff.1 h
    obtain ⟨-, rfl⟩ := Prod.mk.inj heq
    exact length_of_listed? hs

/-- The wildcards of a text that begins at a position, at the front of a piece or not. -/
def wildcards (position : Nat) (front : Bool) (s : List Char) : Except PatternError Pattern :=
  match s with
  | [] => .ok []
  | '?' :: cs => return .anyChar :: (← wildcards (position + 1) false cs)
  | '*' :: '*' :: '*' :: _ => .error ⟨position + 2, .wildcards⟩
  | '*' :: '*' :: cs =>
    if front then
      match cs with
      | [] => .ok [.directories]
      | '/' :: cs => return .directories :: (← wildcards (position + 3) true cs)
      | _ => .error ⟨position + 2, .directories⟩
    else .error ⟨position - 1, .directories⟩
  | '*' :: cs => return .anyText :: (← wildcards (position + 1) false cs)
  | '[' :: cs =>
    match h : class? cs with
    | none => .error ⟨position, .range⟩
    | some (w, rest) =>
      have : rest.length < cs.length := length_of_class? h
      return w :: (← wildcards (position + 1 + (cs.length - rest.length)) false rest)
  | c :: cs => return .char c :: (← wildcards (position + 1) (c == '/') cs)
termination_by s.length

/-- The pattern that a text stands for. -/
def read (s : List Char) : Except PatternError Pattern :=
  wildcards 0 true s

/-! ### Names -/

/-- The text itself and all that is left after a part at its front. -/
def suffixes : List Char → List (List Char)
  | [] => [[]]
  | c :: cs => (c :: cs) :: suffixes cs

/-- Whether a character is in one of the ranges. -/
def inRanges (ranges : List (Char × Char)) (c : Char) : Bool :=
  ranges.any fun r ↦ decide (r.1 ≤ c) && decide (c ≤ r.2)

/-- Whether a character is meant by a wildcard that stands for one. -/
def acceptsChar (c : Char) : Wildcard → Bool
  | .char d => c == d
  | .anyChar => true
  | .within ranges => inRanges ranges c
  | .outside ranges => !inRanges ranges c
  | .anyText | .directories => false

/-- Whether a name is meant. -/
def accepts : Pattern → List Char → Bool
  | [], s => s.isEmpty
  | .anyText :: ws, s | .directories :: ws, s => (suffixes s).any fun rest ↦ accepts ws rest
  | _ :: _, [] => false
  | w :: ws, c :: cs => acceptsChar c w && accepts ws cs

/-- The one name that is meant, if the pattern spells it out. -/
def spelled? : Pattern → Option (List Char)
  | [] => some []
  | .char c :: ws => (spelled? ws).map (c :: ·)
  | _ => none

end Pattern

end JsonEmbed
