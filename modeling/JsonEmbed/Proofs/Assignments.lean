import JsonEmbed.Proofs.Identifiers
import JsonEmbed.Proofs.Members
import JsonEmbed.Proofs.Numerals
import JsonEmbed.Proofs.StringLiterals

/-!
# Assignments and their text

The text of a literal does not say by itself what kind of literal it is: `true` could be the text of
a number, for all that `Literal.number` demands. It does once the tag of the slot is known, and
`Literal.Fits` says which literals a slot of a given tag can get. Among those the text decides
(`eq_of_cText_eq`).

A line of an assignment is its target, the text of its literal, and marks that are always the same;
so of two assignments to one target the lines are equal only if the literals are.
-/

namespace JsonEmbed

namespace Literal

/-! ### Literals of a kind -/

/-- The literals that a slot of a tag can get. -/
def Fits (t : Tag) : Literal → Prop
  | number _ => t = .int ∨ t = .float
  | boolean _ => t = .boolean
  | string _ => t = .string
  | null => False

/-- The literal of a scalar fits its tag. -/
theorem fits_ofJson {v : Json} {t : Tag} (h : v.scalarTag? = some t) : (ofJson v).Fits t := by
  cases v with
  | null | array | object => simp [Json.scalarTag?] at h
  | boolean b =>
    obtain rfl : Tag.boolean = t := Option.some.inj h
    rfl
  | string s =>
    obtain rfl : Tag.string = t := Option.some.inj h
    rfl
  | number n =>
    obtain rfl : n.tag = t := Option.some.inj h
    exact Json.numberTag_cases n

/-- The literals of the elements of an array fit its element tag. -/
theorem fits_of_mem_elements {xs : List Json} {t : Tag} (h : Json.arrayTag xs = .list t)
    {l : Literal} (hl : l ∈ xs.map ofJson) : l.Fits t := by
  obtain ⟨x, hx, rfl⟩ := List.mem_map.1 hl
  rcases Json.arrayTag_eq_list_iff.1 h with ⟨rfl, -⟩ | ⟨-, hall⟩
  · exact absurd hx List.not_mem_nil
  · exact fits_ofJson (hall x hx)

/-- Of the literals that fit one tag the text decides. -/
theorem eq_of_cText_eq {t : Tag} {l m : Literal} (hl : l.Fits t) (hm : m.Fits t)
    (h : l.cText = m.cText) : l = m := by
  cases l with
  | null => exact hl.elim
  | number text =>
    cases m with
    | null => exact hm.elim
    | number text' => exact congrArg number h
    | boolean | string => rcases hl with rfl | rfl <;> exact Tag.noConfusion hm
  | boolean b =>
    obtain rfl : t = .boolean := hl
    cases m with
    | null => exact hm.elim
    | number => rcases hm with hm | hm <;> exact Tag.noConfusion hm
    | string => exact Tag.noConfusion hm
    | boolean b' =>
      cases b <;> cases b' <;> first
        | rfl
        | exact absurd h (by decide)
  | string s =>
    obtain rfl : t = .string := hl
    cases m with
    | null => exact hm.elim
    | number => rcases hm with hm | hm <;> exact Tag.noConfusion hm
    | boolean => exact Tag.noConfusion hm
    | string s' => exact congrArg string (C.stringLiteral_injective h)

/-- Several literals that fit one tag can be told from their texts. -/
theorem eq_of_map_cText_eq {t : Tag} {ls ms : List Literal} (hl : ∀ l ∈ ls, l.Fits t)
    (hm : ∀ m ∈ ms, m.Fits t) (h : ls.map cText = ms.map cText) : ls = ms := by
  induction ls generalizing ms with
  | nil => exact (List.map_eq_nil_iff.1 h.symm).symm
  | cons l ls ih =>
    rcases ms with - | ⟨m, ms⟩
    · exact absurd h (by simp)
    · obtain ⟨hhead, htail⟩ := List.cons.inj h
      rw [eq_of_cText_eq (hl l List.mem_cons_self) (hm m List.mem_cons_self) hhead,
        ih (fun k hk ↦ hl k (List.mem_cons_of_mem l hk))
          (fun k hk ↦ hm k (List.mem_cons_of_mem m hk)) htail]

end Literal

namespace Assignment

/-! ### Lines of assignments -/

/-- Of assignments to one target the lines are equal only if the texts of the literals are. -/
theorem cText_eq_of_line_eq {a b : Assignment} (ht : a.target = b.target)
    (h : a.line = b.line) : a.value.cText = b.value.cText := by
  have hc := congrArg String.toList h
  simp only [line, ht, String.toList_append, List.append_assoc] at hc
  exact String.toList_inj.1 (List.append_cancel_right
    (List.append_cancel_left (List.append_cancel_left (List.append_cancel_left hc))))

/-- The texts of the literals can be told from the lines of assignments to known targets. -/
theorem map_cText_eq_of_map_line_eq {as bs : List Assignment}
    (ht : as.map target = bs.map target) (h : as.map line = bs.map line) :
    (as.map value).map Literal.cText = (bs.map value).map Literal.cText := by
  induction as generalizing bs with
  | nil => rw [List.map_eq_nil_iff.1 h.symm]
  | cons a as ih =>
    rcases bs with - | ⟨b, bs⟩
    · exact absurd h (by simp)
    · obtain ⟨hline, hlines⟩ := List.cons.inj h
      obtain ⟨htarget, htargets⟩ := List.cons.inj ht
      rw [List.map_cons, List.map_cons, List.map_cons, List.map_cons,
        cText_eq_of_line_eq htarget hline, ih htargets hlines]

/-- Assignments are their targets and their values. -/
theorem eq_of_map_eq {as bs : List Assignment} (ht : as.map target = bs.map target)
    (hv : as.map value = bs.map value) : as = bs := by
  induction as generalizing bs with
  | nil => exact (List.map_eq_nil_iff.1 ht.symm).symm
  | cons a as ih =>
    rcases bs with - | ⟨b, bs⟩
    · exact absurd ht (by simp)
    · obtain ⟨htarget, htargets⟩ := List.cons.inj ht
      obtain ⟨hvalue, hvalues⟩ := List.cons.inj hv
      obtain ⟨targetA, valueA⟩ := a
      obtain rfl : targetA = b.target := htarget
      obtain rfl : valueA = b.value := hvalue
      rw [ih htargets hvalues]

end Assignment

end JsonEmbed
