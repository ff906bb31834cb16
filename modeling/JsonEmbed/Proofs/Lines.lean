import JsonEmbed.Program
import Mathlib.Data.List.Basic

/-!
# Lines and delimiters

A text is read back piece by piece: up to the first character that cannot belong to the piece, and
then on. `eq_of_append_delimiter` is this argument in its general form, for any property that the
characters of a piece have and the delimiter after it has not: words end at the first space, and
lines at the first line break.

The last case gives `eq_of_unlines_eq`: lines that hold no line break can be told from their text.
-/

namespace JsonEmbed

/-! ### Pieces and delimiters -/

/-- Two texts that begin with a piece and a delimiter are equal only part by part. -/
theorem eq_of_append_delimiter {α : Type*} {p : α → Prop} {a b r s : List α} {x y : α}
    (ha : ∀ c ∈ a, p c) (hb : ∀ c ∈ b, p c) (hx : ¬p x) (hy : ¬p y)
    (h : a ++ x :: r = b ++ y :: s) : a = b ∧ x = y ∧ r = s := by
  induction a generalizing b with
  | nil =>
    rcases b with - | ⟨d, b⟩
    · exact ⟨rfl, List.cons.inj h⟩
    · -- the delimiter would be the first character of the other piece
      obtain ⟨rfl, -⟩ := List.cons.inj h
      exact absurd (hb x List.mem_cons_self) hx
  | cons c a ih =>
    rcases b with - | ⟨d, b⟩
    · obtain ⟨rfl, -⟩ := List.cons.inj h
      exact absurd (ha c List.mem_cons_self) hy
    · obtain ⟨rfl, ht⟩ := List.cons.inj h
      obtain ⟨rfl, hrest⟩ := ih (fun e he ↦ ha e (List.mem_cons_of_mem c he))
        (fun e he ↦ hb e (List.mem_cons_of_mem c he)) ht
      exact ⟨rfl, hrest⟩

/-! ### Lines -/

/-- A text without a line break. -/
def IsLine (s : String) : Prop :=
  '\n' ∉ s.toList

instance (s : String) : Decidable (IsLine s) :=
  inferInstanceAs (Decidable (¬_))

theorem unlines_cons (l : String) (ls : List String) :
    unlines (l :: ls) = l ++ "\n" ++ unlines ls :=
  rfl

/-- The characters of a text from its first line on. -/
theorem toList_unlines_cons (l : String) (ls : List String) :
    (unlines (l :: ls)).toList = l.toList ++ '\n' :: (unlines ls).toList := by
  rw [unlines_cons, String.toList_append, String.toList_append, List.append_assoc]
  rfl

/-- Lines can be told from their text. -/
theorem eq_of_unlines_eq {ls ms : List String} (hl : ∀ l ∈ ls, IsLine l)
    (hm : ∀ l ∈ ms, IsLine l) (h : unlines ls = unlines ms) : ls = ms := by
  induction ls generalizing ms with
  | nil =>
    rcases ms with - | ⟨m, ms⟩
    · rfl
    · have hc := congrArg String.toList h
      rw [toList_unlines_cons] at hc
      exact absurd hc.symm (by simp [unlines])
  | cons l ls ih =>
    rcases ms with - | ⟨m, ms⟩
    · have hc := congrArg String.toList h
      rw [toList_unlines_cons] at hc
      exact absurd hc (by simp [unlines])
    · have hc := congrArg String.toList h
      rw [toList_unlines_cons, toList_unlines_cons] at hc
      obtain ⟨hlm, -, hrest⟩ := eq_of_append_delimiter (p := (· ≠ '\n'))
        (fun c hc hn ↦ hl l List.mem_cons_self (hn ▸ hc))
        (fun c hc hn ↦ hm m List.mem_cons_self (hn ▸ hc)) (by simp) (by simp) hc
      rw [String.toList_inj.1 hlm, ih (fun k hk ↦ hl k (List.mem_cons_of_mem l hk))
        (fun k hk ↦ hm k (List.mem_cons_of_mem m hk)) (String.toList_inj.1 hrest)]

/-! ### Decimal digits -/

/-- Natural numbers can be told from their digits. -/
theorem eq_of_repr_eq {m n : Nat} (h : Nat.repr m = Nat.repr n) : m = n := by
  have hd : Nat.toDigits 10 m = Nat.toDigits 10 n := by
    rw [← Nat.toList_repr, ← Nat.toList_repr, h]
  rw [← Nat.ofDigitChars_toDigits (b := 10) (n := m) (by decide) (by decide), hd,
    Nat.ofDigitChars_toDigits (by decide) (by decide)]

end JsonEmbed
