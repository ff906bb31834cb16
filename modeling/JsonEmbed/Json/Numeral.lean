import JsonEmbed.Json.Basic
import JsonEmbed.Json.Scanner

/-!
# Numerals

A number of a JSON text is read digit by digit into a significand of 64 bits and a power of ten.
Digits of the integer part that no longer fit are dropped and raise the exponent; digits of the
fraction that do not fit are ignored. The significand is then rounded to binary64 and multiplied or
divided by the rounded power of ten, rounding again. The result may be off from the nearest number
by a last digit, and that is part of the rule: the value of a document is what this module says.
-/

namespace JsonEmbed

namespace Numeral

/-- The value of a decimal digit. -/
def digit? (b : UInt8) : Option Nat :=
  let n := b.toNat
  if 0x30 ≤ n ∧ n ≤ 0x39 then some (n - 0x30) else none

/-- Whether a byte is a decimal digit. -/
def isDigit (b : UInt8) : Bool :=
  (digit? b).isSome

/-- Whether the text goes on with a digit. -/
def startsWithDigit : Bytes → Bool
  | [] => false
  | b :: _ => isDigit b

/-- The largest significand. -/
def maxSignificand : Nat := Nat.pow 2 64 - 1

/-- The largest exponent that is read as such. -/
def maxExponent : Nat := Nat.pow 2 31 - 1

/-- Takes digits into the significand while it stays within bounds: the new significand, how many
digits were taken, and the text after them. -/
def accumulate (significand : Nat) : Bytes → Nat × Nat × Bytes
  | [] => (significand, 0, [])
  | b :: s =>
    match digit? b with
    | none => (significand, 0, b :: s)
    | some d =>
      if significand * 10 + d ≤ maxSignificand then
        let (total, count, rest) := accumulate (significand * 10 + d) s
        (total, count + 1, rest)
      else (significand, 0, b :: s)

/-- Divides by `10 ^ 308` the given number of times, or until nothing is left. -/
def shrink : Nat → Binary64 → Binary64
  | 0, f => f
  | n + 1, f =>
    if f.units = 0 then f else shrink n ((f.div? (.tenPow 308)).getD .zero)

/-- The binary64 number read for `significand * 10 ^ exponent`, if it is in range. -/
def scaled? (significand : Nat) (exponent : Int) : Option Binary64 :=
  let f := Binary64.ofNat significand
  if 0 ≤ exponent then
    if exponent ≤ 308 then f.mul? (.tenPow exponent.toNat)
    else if f.units = 0 then some f
    else none
  else
    let n := exponent.natAbs
    let steps := (n - 1) / 308
    (shrink steps f).div? (.tenPow (n - 308 * steps))

/-- The number with a sign and a scaled significand, at the end of its text. -/
def double (negative : Bool) (significand : Nat) (exponent : Int) (s : Bytes) :
    ReadResult Number :=
  match scaled? significand exponent with
  | some f => .ok (.double ⟨negative, f.units⟩, s)
  | none => Fault.at s .numberOutOfRange

/-- Takes the digits of an exponent: its value and the text after it, or the text after the digit
with which it grew too large. -/
def exponentDigits (value : Nat) : Bytes → Except Bytes (Nat × Bytes)
  | [] => .ok (value, [])
  | b :: s =>
    match digit? b with
    | none => .ok (value, b :: s)
    | some d =>
      if value * 10 + d ≤ maxExponent then exponentDigits (value * 10 + d) s else .error s

/-- A number from after the letter of its exponent. An exponent that is too large gives zero if it
is negative or the significand is zero. -/
def exponentPart (negative : Bool) (significand : Nat) (shift : Int) (s : Bytes) :
    ReadResult Number :=
  let (down, s) :=
    match s with
    | 0x2b :: s => (false, s)
    | 0x2d :: s => (true, s)
    | s => (false, s)
  match s with
  | [] => Fault.at [] .endInValue
  | b :: s =>
    match digit? b with
    | none => Fault.at s .invalidNumber
    | some d =>
      match exponentDigits d s with
      | .ok (e, s) => double negative significand (if down then shift - e else shift + e) s
      | .error s =>
        if significand ≠ 0 ∧ down = false then Fault.at s .numberOutOfRange
        else .ok (.double ⟨negative, 0⟩, s.dropWhile isDigit)

/-- A number after its digits: an exponent may follow. -/
def afterDigits (negative : Bool) (significand : Nat) (shift : Int) (s : Bytes) :
    ReadResult Number :=
  match s with
  | 0x65 :: s => exponentPart negative significand shift s
  | 0x45 :: s => exponentPart negative significand shift s
  | s => double negative significand shift s

/-- A number from after its decimal point, which at least one digit must follow. -/
def fractionPart (negative : Bool) (significand : Nat) (shift : Int) (s : Bytes) :
    ReadResult Number :=
  let (total, count, rest) := accumulate significand s
  if startsWithDigit rest then
    afterDigits negative total (shift - count) (rest.dropWhile isDigit)
  else if count = 0 then
    match rest with
    | [] => Fault.at [] .endInValue
    | rest => Fault.within rest .invalidNumber
  else afterDigits negative total (shift - count) rest

/-- An integer that fits 64 bits is kept; minus zero and integers below the range are not. -/
def whole (negative : Bool) (significand : Nat) : Number :=
  if negative then
    if 0 < significand ∧ significand ≤ Nat.pow 2 63 then .integer (-(significand : Int))
    else .double ⟨true, (Binary64.ofNat significand).units⟩
  else .integer significand

/-- A number after an integer part that fits the significand. -/
def afterInteger (negative : Bool) (significand : Nat) (s : Bytes) : ReadResult Number :=
  match s with
  | 0x2e :: s => fractionPart negative significand 0 s
  | 0x65 :: s => exponentPart negative significand 0 s
  | 0x45 :: s => exponentPart negative significand 0 s
  | s => .ok (whole negative significand, s)

/-- A number from after its sign. A leading zero stands alone. -/
def unsigned (negative : Bool) (s : Bytes) : ReadResult Number :=
  match s with
  | [] => Fault.at [] .endInValue
  | b :: s =>
    match digit? b with
    | none => Fault.at s .invalidNumber
    | some 0 =>
      if startsWithDigit s then Fault.within s .invalidNumber else afterInteger negative 0 s
    | some d =>
      let (total, _, rest) := accumulate d s
      if startsWithDigit rest then
        let shift := (rest.takeWhile isDigit).length
        match rest.dropWhile isDigit with
        | 0x2e :: s => fractionPart negative total shift s
        | s => afterDigits negative total shift s
      else afterInteger negative total rest

end Numeral

end JsonEmbed
