/-!
# Binary64 numbers

A finite binary64 number is an integer multiple of `2 ^ (-1074)`, the smallest positive one. It is
kept as its sign and that multiple, so every question about it is a question about natural numbers:
no exponent field, no machine arithmetic. `roundUnits` is the one rounding rule, to the nearest
representable multiple with ties to the even one; each operation is the exact result followed by it.
-/

namespace JsonEmbed

/-- A finite binary64 number: its sign, and its magnitude counted in units of `2 ^ (-1074)`. The
sign of zero is kept. -/
structure Binary64 where
  negative : Bool
  units : Nat
  deriving DecidableEq, Inhabited

namespace Binary64

/-- How many units make one. -/
def scale : Nat := Nat.pow 2 1074

/-- The first magnitude too large to be finite. -/
def limit : Nat := Nat.pow 2 2098

/-- The distance between representable magnitudes from `u` upwards: 53 significant bits, and never
less than one unit. -/
def spacing (u : Nat) : Nat :=
  Nat.pow 2 (Nat.log2 u - 52)

/-- The magnitudes that the format has. -/
def Representable (u : Nat) : Prop :=
  u < limit ∧ spacing u ∣ u

instance (u : Nat) : Decidable (Representable u) :=
  inferInstanceAs (Decidable (_ ∧ _))

/-- The representable multiple nearest to `num / den` units, the one with an even count of spacings
if two are equally near. The result may be `limit` or more. -/
def roundUnits (num den : Nat) : Nat :=
  let gap := spacing (num / den)
  let step := den * gap
  let count := num / step
  let rest := num % step
  let nearest :=
    if 2 * rest < step then count
    else if step < 2 * rest then count + 1
    else count + count % 2
  nearest * gap

/-- The number with the given sign nearest to `num / den` units, if it is finite. -/
def ofUnits? (negative : Bool) (num den : Nat) : Option Binary64 :=
  let u := roundUnits num den
  if u < limit then some ⟨negative, u⟩ else none

/-- Zero, without a sign. -/
def zero : Binary64 := ⟨false, 0⟩

/-- The number nearest to a natural number that is below the finite limit; zero for one beyond. -/
def ofNat (n : Nat) : Binary64 :=
  (ofUnits? false (n * scale) 1).getD zero

/-- The number nearest to an integer of at most 64 bits. -/
def ofInt (i : Int) : Binary64 :=
  ⟨decide (i < 0), (ofNat i.natAbs).units⟩

/-- The same magnitude under the other sign. -/
def neg (x : Binary64) : Binary64 :=
  ⟨!x.negative, x.units⟩

/-- The magnitude. -/
def abs (x : Binary64) : Binary64 :=
  ⟨false, x.units⟩

/-- The value in units, with its sign. -/
def toUnits (x : Binary64) : Int :=
  if x.negative then -(x.units : Int) else x.units

/-- Whether the number is an integer. -/
def IsIntegral (x : Binary64) : Prop :=
  scale ∣ x.units

instance (x : Binary64) : Decidable x.IsIntegral :=
  inferInstanceAs (Decidable (_ ∣ _))

/-- The integer part: the fraction is dropped, toward zero. -/
def truncate (x : Binary64) : Int :=
  if x.negative then -((x.units / scale : Nat) : Int) else ((x.units / scale : Nat) : Int)

/-- The product, if it is finite. -/
def mul? (x y : Binary64) : Option Binary64 :=
  ofUnits? (x.negative != y.negative) (x.units * y.units) scale

/-- The quotient by a divisor that is not zero, if it is finite. -/
def div? (x y : Binary64) : Option Binary64 :=
  ofUnits? (x.negative != y.negative) (x.units * scale) y.units

/-- The number nearest to `10 ^ e`, for an exponent up to 308. -/
def tenPow (e : Nat) : Binary64 :=
  ofNat (Nat.pow 10 e)

end Binary64

end JsonEmbed
