import JsonEmbed.Number.Shortest

/-!
# Decimal text

How a binary64 number is written: the digits of the shortest decimal, positional while the leading
digit's exponent lies in a range, with an exponent outside it. A `FloatFormat` holds the decisions
in which two writers may differ; `FloatFormat.document` is the one that documents are written with.
-/

namespace JsonEmbed

/-- The decimal text of an integer. -/
def decimalText (i : Int) : String :=
  if i < 0 then "-" ++ Nat.repr i.natAbs else Nat.repr i.natAbs

/-- The decisions of a writer of binary64 numbers. -/
structure FloatFormat where
  /-- The least exponent of the leading digit that is written positionally. -/
  leastPositional : Int
  /-- The least exponent above those that is not. -/
  leastScientific : Int
  /-- What stands before a nonnegative exponent. -/
  positiveMark : String
  /-- The choice between two equally near decimals. -/
  tie : Tie
  deriving DecidableEq

namespace FloatFormat

/-- Documents write `0.00001` and `1e16` in full up to those points, and then `1e-6` and `1e+16`. -/
def document : FloatFormat := ⟨-5, 16, "+", .toEven⟩

/-- Positional text, with at least one digit on both sides of the point. The `point` says how many
of the digits stand before it. -/
def positional (digits : List Char) (point : Int) : List Char :=
  if point ≤ 0 then
    '0' :: '.' :: List.replicate (-point).toNat '0' ++ digits
  else
    let whole := digits.take point.toNat
    let fraction := digits.drop point.toNat
    whole ++ List.replicate (point.toNat - whole.length) '0' ++
      '.' :: (if fraction.isEmpty then ['0'] else fraction)

/-- Text with an exponent: one digit, the other digits after a point if there are any, and the
exponent of the first digit. -/
def scientific (f : FloatFormat) (digits : List Char) (exponent : Int) : List Char :=
  let fraction := digits.drop 1
  digits.take 1 ++ (if fraction.isEmpty then [] else '.' :: fraction) ++
    'e' :: (if exponent < 0 then [] else f.positiveMark.toList) ++ (decimalText exponent).toList

/-- The text of a magnitude. -/
def magnitude (f : FloatFormat) (u : Nat) : String :=
  let d := Binary64.shortest f.tie u
  let digits := Nat.toDigits 10 d.digits
  let leading := d.exponent + digits.length - 1
  String.ofList <|
    if u = 0 ∨ f.leastPositional ≤ leading ∧ leading < f.leastScientific then
      positional digits (leading + 1)
    else
      scientific f digits leading

/-- The text of a number. -/
def text (f : FloatFormat) (x : Binary64) : String :=
  if x.negative then "-" ++ f.magnitude x.units else f.magnitude x.units

end FloatFormat

end JsonEmbed
