import JsonEmbed.Number.Binary64

/-!
# Binary64 with infinities

Arithmetic that may leave the finite numbers, as the filter language needs it: the finite numbers,
two infinities, and one value that is not a number. A finite result is the exact one rounded, and an
exact zero takes the sign that the operands agree on.
-/

namespace JsonEmbed

/-- A binary64 number that may be infinite or no number at all. -/
inductive Extended where
  | finite (x : Binary64)
  | infinite (negative : Bool)
  | notANumber
  deriving DecidableEq, Inhabited

namespace Extended

open Binary64

/-- The number with the given sign nearest to `num / den` units. -/
def ofUnits (negative : Bool) (num den : Nat) : Extended :=
  match ofUnits? negative num den with
  | some x => finite x
  | none => infinite negative

/-- The number nearest to an integer. -/
def ofInt (i : Int) : Extended :=
  ofUnits (decide (i < 0)) (i.natAbs * scale) 1

/-- The same magnitude under the other sign. -/
def neg : Extended → Extended
  | finite x => finite x.neg
  | infinite s => infinite (!s)
  | notANumber => notANumber

/-- The magnitude. -/
def abs : Extended → Extended
  | finite x => finite x.abs
  | infinite _ => infinite false
  | notANumber => notANumber

/-- The sum. Opposite infinities have none; a sum that is exactly zero is negative only when both
operands are negative. -/
def add : Extended → Extended → Extended
  | finite x, finite y =>
    let sum := x.toUnits + y.toUnits
    if sum = 0 then finite ⟨x.negative && y.negative, 0⟩
    else ofUnits (decide (sum < 0)) sum.natAbs 1
  | infinite s, finite _ => infinite s
  | finite _, infinite s => infinite s
  | infinite s, infinite t => if s = t then infinite s else notANumber
  | notANumber, _ => notANumber
  | _, notANumber => notANumber

/-- The difference. -/
def sub (x y : Extended) : Extended :=
  add x y.neg

/-- The product. Zero times infinity has none. -/
def mul : Extended → Extended → Extended
  | finite x, finite y => ofUnits (x.negative != y.negative) (x.units * y.units) scale
  | infinite s, finite y => if y.units = 0 then notANumber else infinite (s != y.negative)
  | finite x, infinite t => if x.units = 0 then notANumber else infinite (x.negative != t)
  | infinite s, infinite t => infinite (s != t)
  | notANumber, _ => notANumber
  | _, notANumber => notANumber

/-- The quotient. Division of a number other than zero by zero is infinite. -/
def div : Extended → Extended → Extended
  | finite x, finite y =>
    if y.units = 0 then
      if x.units = 0 then notANumber else infinite (x.negative != y.negative)
    else ofUnits (x.negative != y.negative) (x.units * scale) y.units
  | infinite s, finite y => infinite (s != y.negative)
  | finite x, infinite t => finite ⟨x.negative != t, 0⟩
  | infinite _, infinite _ => notANumber
  | notANumber, _ => notANumber
  | _, notANumber => notANumber

/-- The remainder of the division rounded toward zero, which is exact and takes the sign of the
dividend. -/
def rem : Extended → Extended → Extended
  | finite x, finite y =>
    if y.units = 0 then notANumber else finite ⟨x.negative, x.units % y.units⟩
  | finite x, infinite _ => finite x
  | infinite _, _ => notANumber
  | notANumber, _ => notANumber
  | _, notANumber => notANumber

/-- Equality of values: the zeros are equal, and what is not a number equals nothing. -/
def beq : Extended → Extended → Bool
  | finite x, finite y => decide (x.toUnits = y.toUnits)
  | infinite s, infinite t => decide (s = t)
  | _, _ => false

/-- Strict order of values; what is not a number is below everything, itself included. -/
def below : Extended → Extended → Bool
  | notANumber, _ => true
  | _, notANumber => false
  | finite x, finite y => decide (x.toUnits < y.toUnits)
  | infinite s, finite _ => s
  | finite _, infinite t => !t
  | infinite s, infinite t => s && !t

end Extended

end JsonEmbed
