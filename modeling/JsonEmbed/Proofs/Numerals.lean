import JsonEmbed.Tag
import JsonEmbed.Proofs.Lines

/-!
# The characters of numerals

Numbers are written in the generated program with digits, signs, a point and the letter of an
exponent, whatever their size. The layout of a fraction adds only these to its digits, so the
property is proved for each layout from the digits alone; which digits those are plays no part.
-/

namespace JsonEmbed

/-- The characters of a numeral. -/
def isNumeralChar (c : Char) : Bool :=
  c.isDigit || c == '-' || c == '+' || c == '.' || c == 'e'

/-- A text of characters of numerals. -/
def IsNumeral (s : List Char) : Prop :=
  ∀ c ∈ s, isNumeralChar c = true

namespace IsNumeral

theorem nil : IsNumeral [] :=
  fun _ h ↦ absurd h List.not_mem_nil

theorem cons {c : Char} {s : List Char} (hc : isNumeralChar c = true) (hs : IsNumeral s) :
    IsNumeral (c :: s) := by
  intro d hd
  rcases List.mem_cons.1 hd with rfl | hd
  · exact hc
  · exact hs d hd

theorem append {s t : List Char} (hs : IsNumeral s) (ht : IsNumeral t) : IsNumeral (s ++ t) := by
  intro c hc
  exact (List.mem_append.1 hc).elim (hs c) (ht c)

theorem of_subset {s t : List Char} (h : s ⊆ t) (ht : IsNumeral t) : IsNumeral s :=
  fun c hc ↦ ht c (h hc)

theorem zeros (n : Nat) : IsNumeral (List.replicate n '0') := by
  intro c hc
  rw [List.eq_of_mem_replicate hc]
  rfl

theorem toDigits (n : Nat) : IsNumeral (Nat.toDigits 10 n) := by
  intro c hc
  rw [isNumeralChar, Nat.isDigit_of_mem_toDigits (by decide) (by decide) hc]
  rfl

end IsNumeral

/-! ### Integers and fractions -/

theorem isNumeral_repr (n : Nat) : IsNumeral (Nat.repr n).toList := by
  rw [Nat.toList_repr]
  exact .toDigits n

/-- Integers are written with numerals. -/
theorem isNumeral_decimalText (i : Int) : IsNumeral (decimalText i).toList := by
  rw [decimalText]
  split
  · rw [String.toList_append]
    exact .cons rfl (isNumeral_repr _)
  · exact isNumeral_repr _

namespace FloatFormat

theorem isNumeral_positional {digits : List Char} (h : IsNumeral digits) (point : Int) :
    IsNumeral (positional digits point) := by
  rw [positional]
  split
  · exact .cons rfl (.cons rfl (.append (.zeros _) h))
  · have hfraction : IsNumeral (digits.drop point.toNat) :=
      .of_subset (List.drop_subset _ _) h
    refine .append (.append (.of_subset (List.take_subset _ _) h) (.zeros _)) (.cons rfl ?_)
    split
    · exact .cons rfl .nil
    · exact hfraction

theorem isNumeral_scientific {f : FloatFormat} (hf : IsNumeral f.positiveMark.toList)
    {digits : List Char} (h : IsNumeral digits) (exponent : Int) :
    IsNumeral (scientific f digits exponent) := by
  have hfraction : IsNumeral (digits.drop 1) := .of_subset (List.drop_subset _ _) h
  rw [scientific]
  have hmark : IsNumeral (if exponent < 0 then [] else f.positiveMark.toList) := by
    split
    · exact .nil
    · exact hf
  refine .append (.append (.append (.of_subset (List.take_subset _ _) h) ?_) (.cons rfl hmark))
    (isNumeral_decimalText exponent)
  split
  · exact .nil
  · exact .cons rfl hfraction

theorem isNumeral_magnitude {f : FloatFormat} (hf : IsNumeral f.positiveMark.toList) (u : Nat) :
    IsNumeral (f.magnitude u).toList := by
  rw [magnitude, String.toList_ofList]
  split
  · exact isNumeral_positional (.toDigits _) _
  · exact isNumeral_scientific hf (.toDigits _) _

/-- Fractions are written with numerals if the mark of an exponent is one. -/
theorem isNumeral_text {f : FloatFormat} (hf : IsNumeral f.positiveMark.toList) (x : Binary64) :
    IsNumeral (f.text x).toList := by
  rw [text]
  split
  · rw [String.toList_append]
    exact .cons rfl (isNumeral_magnitude hf _)
  · exact isNumeral_magnitude hf _

end FloatFormat

/-- The text of a number is a numeral. -/
theorem isNumeral_cText (n : Number) : IsNumeral n.cText.toList := by
  rcases n with i | x
  · exact isNumeral_decimalText i
  · rw [Number.cText]
    split
    · exact isNumeral_decimalText _
    · have hmark : IsNumeral FloatFormat.document.positiveMark.toList := .cons rfl .nil
      exact FloatFormat.isNumeral_text hmark x

end JsonEmbed
