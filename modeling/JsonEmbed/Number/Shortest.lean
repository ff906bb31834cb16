import JsonEmbed.Number.Binary64

/-!
# Shortest decimals

The decimal written for a binary64 magnitude is the shortest one that rounds back to it, and of
those the nearest. The magnitudes that round to `u` form an interval: half a spacing to each side,
half of the smaller spacing below where the spacing halves, and its ends belong to it when the
count of spacings is even, as reading sends ties to even. On the grid of decimals with `n` digits
only the two neighbours of `u` matter: if the interval holds a point of the grid, it holds one of
them. Which of two equally near ones is written is the writer's choice, a `Tie`.
-/

namespace JsonEmbed

/-- A decimal number `digits * 10 ^ exponent`. -/
structure Decimal where
  digits : Nat
  exponent : Int
  deriving DecidableEq, Inhabited

/-- Which of two equally near decimals is written. -/
inductive Tie where
  /-- The one with an even last digit. -/
  | toEven
  /-- The greater one. -/
  | upward
  deriving DecidableEq, Inhabited

namespace Decimal

/-- A nonnegative rational number as numerator and denominator: a decimal as a count of units. -/
def inUnits (d : Decimal) : Nat × Nat :=
  (d.digits * Nat.pow 10 d.exponent.toNat * Binary64.scale, Nat.pow 10 (-d.exponent).toNat)

/-- Drops trailing zero digits, at most as many as the fuel says. -/
def dropZeros : Nat → Decimal → Decimal
  | 0, d => d
  | fuel + 1, d =>
    if d.digits ≠ 0 ∧ d.digits % 10 = 0 then dropZeros fuel ⟨d.digits / 10, d.exponent + 1⟩ else d

end Decimal

namespace Binary64

/-- Four times the lower end of the interval that rounds to `u`. -/
def lowerEnd (u : Nat) : Nat :=
  let gap := spacing u
  if gap ≠ 1 ∧ u = Nat.pow 2 52 * gap then 4 * u - gap else 4 * u - 2 * gap

/-- Four times the upper end of the interval that rounds to `u`. -/
def upperEnd (u : Nat) : Nat :=
  4 * u + 2 * spacing u

/-- Whether the decimal rounds to `u`. -/
def holds (u : Nat) (d : Decimal) : Bool :=
  let (num, den) := d.inUnits
  if u / spacing u % 2 = 0 then
    decide (lowerEnd u * den ≤ 4 * num) && decide (4 * num ≤ upperEnd u * den)
  else
    decide (lowerEnd u * den < 4 * num) && decide (4 * num < upperEnd u * den)

/-- The exponent `k` with `10 ^ k ≤ u` units `< 10 ^ (k + 1)`, for `u` above zero. -/
def decimalExponent (u : Nat) : Int :=
  ((Nat.toDigits 10 (u * Nat.pow 10 330 / scale)).length : Int) - 331

/-- How far a decimal is from `u` units, as a numerator over the decimal's denominator. -/
def distance (u : Nat) (d : Decimal) : Nat :=
  let (num, den) := d.inUnits
  (num - u * den) + (u * den - num)

/-- The two decimals with `n` digits next to `u`, the lower one first. -/
def neighbours (u n : Nat) : Decimal × Decimal :=
  let exponent := decimalExponent u + 1 - n
  let below := u * Nat.pow 10 (-exponent).toNat / (Nat.pow 10 exponent.toNat * scale)
  (⟨below, exponent⟩, ⟨below + 1, exponent⟩)

/-- The nearer of the neighbours with `n` digits that round to `u`, if one does. -/
def candidate? (tie : Tie) (u n : Nat) : Option Decimal :=
  let (low, high) := neighbours u n
  match holds u low, holds u high with
  | true, false => some low
  | false, true => some high
  | false, false => none
  | true, true =>
    if distance u low < distance u high then some low
    else if distance u high < distance u low then some high
    else if tie = .toEven ∧ low.digits % 2 = 0 then some low
    else some high

/-- The first hit among the grids with `n`, `n + 1`, … digits. -/
def search (tie : Tie) (u : Nat) : Nat → Nat → Decimal
  | 0, n => (neighbours u n).1
  | fuel + 1, n => (candidate? tie u n).getD (search tie u fuel (n + 1))

/-- The shortest decimal that rounds to `u` units, without trailing zeros. Seventeen digits always
suffice. -/
def shortest (tie : Tie) (u : Nat) : Decimal :=
  if u = 0 then ⟨0, 0⟩ else (search tie u 17 1).dropZeros 17

end Binary64

end JsonEmbed
