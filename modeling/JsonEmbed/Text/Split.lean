/-!
# Splitting texts

`splitOn` cuts a text at every occurrence of a separator. There is one part more than there are
separators, and joining the parts again gives the text back.
-/

namespace JsonEmbed

/-- The parts of a text between the separators. -/
def splitOn (separator : Char) : List Char → List (List Char)
  | [] => [[]]
  | c :: cs =>
    if c = separator then [] :: splitOn separator cs
    else
      match splitOn separator cs with
      | [] => [[c]]
      | part :: parts => (c :: part) :: parts

/-- The text that has the given parts between separators. -/
def joinWith (separator : Char) : List (List Char) → List Char
  | [] => []
  | [part] => part
  | part :: parts => part ++ separator :: joinWith separator parts

theorem splitOn_ne_nil (separator : Char) (s : List Char) : splitOn separator s ≠ [] := by
  cases s with
  | nil => simp [splitOn]
  | cons c cs =>
    rw [splitOn]
    split
    · simp
    · split <;> simp

/-- A text without the separator is one part. -/
theorem splitOn_of_not_mem {separator : Char} {s : List Char} (h : separator ∉ s) :
    splitOn separator s = [s] := by
  induction s with
  | nil => rfl
  | cons c cs ih =>
    obtain ⟨hc, hcs⟩ := not_or.1 (fun hmem ↦ h (List.mem_cons.2 hmem))
    rw [splitOn, if_neg (Ne.symm hc), ih hcs]

/-- The first part ends before the first separator. -/
theorem exists_splitOn_eq (separator : Char) (s : List Char) :
    ∃ parts, splitOn separator s = s.takeWhile (· ≠ separator) :: parts := by
  induction s with
  | nil => exact ⟨[], rfl⟩
  | cons c cs ih =>
    obtain ⟨parts, ih⟩ := ih
    by_cases hc : c = separator
    · exact ⟨splitOn separator cs, by rw [splitOn, if_pos hc]; simp [hc]⟩
    · refine ⟨parts, ?_⟩
      rw [splitOn, if_neg hc, ih]
      simp [hc]

/-- A separator ends one part and begins another. -/
theorem splitOn_append_cons (separator : Char) (s t : List Char) :
    splitOn separator (s ++ separator :: t) = splitOn separator s ++ splitOn separator t := by
  induction s with
  | nil => exact if_pos rfl
  | cons c cs ih =>
    rw [List.cons_append, splitOn, splitOn, ih]
    split
    · rfl
    · rcases h : splitOn separator cs with - | ⟨part, parts⟩
      · exact absurd h (splitOn_ne_nil separator cs)
      · rfl

/-- The parts hold nothing but characters of the text, and no separator. -/
theorem mem_of_mem_splitOn {separator : Char} {s part : List Char}
    (h : part ∈ splitOn separator s) : ∀ c ∈ part, c ∈ s ∧ c ≠ separator := by
  induction s generalizing part with
  | nil =>
    rw [List.mem_singleton.1 h]
    exact fun c hc ↦ absurd hc List.not_mem_nil
  | cons d cs ih =>
    have hlater : ∀ p ∈ splitOn separator cs, ∀ c ∈ p, c ∈ d :: cs ∧ c ≠ separator :=
      fun p hp c hc ↦ ⟨List.mem_cons_of_mem d (ih hp c hc).1, (ih hp c hc).2⟩
    rw [splitOn] at h
    split at h
    · rcases List.mem_cons.1 h with rfl | h
      · exact fun c hc ↦ absurd hc List.not_mem_nil
      · exact hlater part h
    · next hd =>
      rcases hparts : splitOn separator cs with - | ⟨first, parts⟩
      · exact absurd hparts (splitOn_ne_nil separator cs)
      · rw [hparts] at h hlater
        rcases List.mem_cons.1 h with rfl | h
        · exact List.forall_mem_cons.2
            ⟨⟨List.mem_cons_self, hd⟩, hlater first List.mem_cons_self⟩
        · exact hlater part (List.mem_cons_of_mem first h)

/-- Nothing is lost by splitting. -/
theorem joinWith_splitOn (separator : Char) (s : List Char) :
    joinWith separator (splitOn separator s) = s := by
  induction s with
  | nil => rfl
  | cons c cs ih =>
    rw [splitOn]
    have hne := splitOn_ne_nil separator cs
    rcases h : splitOn separator cs with - | ⟨part, parts⟩
    · exact absurd h hne
    · rw [h] at ih
      split
      · next hc => rw [joinWith.eq_3 _ _ _ (by simp), ih, List.nil_append, hc]
      · cases parts with
        | nil => simpa [joinWith] using ih
        | cons p ps => simpa [joinWith] using ih

end JsonEmbed
