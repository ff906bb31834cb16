import JsonEmbed.C.Identifier
import JsonEmbed.Proofs.Lines

/-!
# Names

Names stand in the text of a program between marks that no name holds: a point, a bracket, a
semicolon, a space. `C.IsName` is the property that makes this work, and `eq_of_name_append` reads
a name back from what follows it.
-/

namespace JsonEmbed

namespace C

/-- A text of letters, digits and underscores. -/
def IsName (s : String) : Prop :=
  ∀ c ∈ s.toList, isIdentifierChar c = true

/-- A character is kept or replaced by an underscore. -/
theorem isIdentifierChar_of_mem_replaceOthers {s : List Char} {c : Char}
    (h : c ∈ replaceOthers s) : isIdentifierChar c = true := by
  obtain ⟨d, -, rfl⟩ := List.mem_map.1 h
  by_cases hd : isIdentifierChar d = true
  · rw [if_pos hd]
    exact hd
  · rw [if_neg hd]
    rfl

/-- The guard of a leading digit is an underscore. -/
theorem mem_guardDigit {s : List Char} {c : Char} (h : c ∈ guardDigit s) : c = '_' ∨ c ∈ s := by
  rcases s with - | ⟨d, s⟩
  · exact Or.inl (List.mem_singleton.1 h)
  · rw [guardDigit] at h
    split at h
    · exact List.mem_cons.1 h
    · exact Or.inr h

/-- The guard of a reserved word is an underscore. -/
theorem mem_guardReserved {s : String} {c : Char} (h : c ∈ (guardReserved s).toList) :
    c = '_' ∨ c ∈ s.toList := by
  rw [guardReserved] at h
  split at h
  · rw [String.toList_append, List.mem_append] at h
    exact h.symm.imp_left List.mem_singleton.1
  · exact Or.inr h

/-- Identifiers are names. -/
theorem isName_identifier (s : String) : IsName (identifier s) := by
  intro c hc
  rcases mem_guardReserved hc with rfl | hc
  · rfl
  · rw [String.toList_ofList] at hc
    rcases mem_guardDigit hc with rfl | hc
    · rfl
    · exact isIdentifierChar_of_mem_replaceOthers hc

/-- A name is what identifiers can hold of a text in which a mark follows it or nothing does. -/
theorem takeWhile_name_append {n : String} {t : List Char} (hn : IsName n)
    (ht : ∀ c ∈ t.head?, isIdentifierChar c = false) :
    (n.toList ++ t).takeWhile isIdentifierChar = n.toList := by
  rw [List.takeWhile_append_of_pos hn]
  rcases t with - | ⟨c, t⟩
  · exact List.append_nil _
  · rw [List.takeWhile_cons_of_neg (by simp [ht c rfl]), List.append_nil]

/-- A name ends where a mark follows or nothing does. -/
theorem eq_of_name_append_of_head? {a b : String} {r s : List Char} (ha : IsName a)
    (hb : IsName b) (hr : ∀ c ∈ r.head?, isIdentifierChar c = false)
    (hs : ∀ c ∈ s.head?, isIdentifierChar c = false) (h : a.toList ++ r = b.toList ++ s) :
    a = b ∧ r = s := by
  have hab : a.toList = b.toList := by
    rw [← takeWhile_name_append ha hr, h, takeWhile_name_append hb hs]
  exact ⟨String.toList_inj.1 hab, List.append_cancel_left (hab ▸ h)⟩

/-- A name ends at the first character that is in no name. -/
theorem eq_of_name_append {a b : String} {r s : List Char} {x y : Char} (ha : IsName a)
    (hb : IsName b) (hx : isIdentifierChar x = false) (hy : isIdentifierChar y = false)
    (h : a.toList ++ x :: r = b.toList ++ y :: s) : a = b ∧ x = y ∧ r = s := by
  have hmark : ∀ {z : Char} {t : List Char}, isIdentifierChar z = false →
      ∀ c ∈ (z :: t).head?, isIdentifierChar c = false := by
    intro z t hz c hc
    obtain rfl : z = c := Option.some.inj hc
    exact hz
  obtain ⟨hab, hrest⟩ := eq_of_name_append_of_head? ha hb (hmark hx) (hmark hy) h
  exact ⟨hab, List.cons.inj hrest⟩

end C

end JsonEmbed
