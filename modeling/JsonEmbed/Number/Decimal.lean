import JsonEmbed.Number.Extended

/-!
# Reading decimals

`Extended.ofText?` reads a decimal text as the nearest binary64 number, with one rounding from the
exact value. The exponent may be arbitrarily large: a decimal whose leading digit lies far outside
the binary64 range is recognised as infinite or zero before any power of ten is computed.
-/

namespace JsonEmbed

namespace Extended

/-- The number nearest to `significand * 10 ^ exponent`. -/
def ofDecimal (negative : Bool) (significand : Nat) (exponent : Int) : Extended :=
  let digits := (Nat.toDigits 10 significand).length
  if significand = 0 then finite ⟨negative, 0⟩
  else if 400 < exponent + digits then infinite negative
  else if exponent + digits < -400 then finite ⟨negative, 0⟩
  else
    ofUnits negative (significand * Nat.pow 10 exponent.toNat * Binary64.scale)
      (Nat.pow 10 (-exponent).toNat)

/-- The value of a text of decimal digits. -/
def natural? (cs : List Char) : Option Nat :=
  if cs ≠ [] ∧ cs.all Char.isDigit then some (Nat.ofDigitChars 10 cs 0) else none

/-- The value of a text of decimal digits that may have a sign. -/
def integer? : List Char → Option Int
  | '-' :: cs => (natural? cs).map fun n ↦ -(n : Int)
  | '+' :: cs => (natural? cs).map fun n ↦ (n : Int)
  | cs => (natural? cs).map fun n ↦ (n : Int)

/-- Whether a character begins an exponent. -/
def isExponentMark (c : Char) : Bool :=
  c == 'e' || c == 'E'

/-- The number that a decimal text denotes: digits, maybe with a sign, a point and an exponent. -/
def ofText? (text : String) : Option Extended := do
  let (negative, cs) :=
    match text.toList with
    | '-' :: cs => (true, cs)
    | cs => (false, cs)
  let mantissa := cs.takeWhile (!isExponentMark ·)
  let exponent ←
    match cs.dropWhile (!isExponentMark ·) with
    | [] => some 0
    | _ :: cs => integer? cs
  let whole := mantissa.takeWhile (· != '.')
  let fraction := (mantissa.dropWhile (· != '.')).drop 1
  let significand ← natural? (whole ++ fraction)
  return ofDecimal negative significand (exponent - fraction.length)

end Extended

end JsonEmbed
