import JsonEmbed.Files.Expansion
import JsonEmbed.Proofs.Places
import Mathlib.Data.List.Basic

/-!
# Texts with wildcards

A path is a pattern as well. Where it holds no bracket and no two asterisks in a row, every text can
be read as a pattern (`read_eq_map`), and what is meant is what `Fits` it: a question mark stands
for any character, an asterisk for any characters, and every other character for itself. A text
always fits itself, so a path is never left out of what it means as a pattern.

`PathPattern.read_eq` says what such a path comes to: a step for each of its pieces, which follows
the piece as a name if it has no wildcard, and looks for names that fit it otherwise.
-/

namespace JsonEmbed

/-! ### Texts without brackets and double asterisks -/

/-- A text that has no wildcards but single asterisks and question marks. -/
structure Plainly (s : List Char) : Prop where
  bracket : '[' ∉ s
  asterisks : ¬['*', '*'] <:+: s

/-- A text with a wildcard that is an asterisk or a question mark. -/
def HasWildcard (s : List Char) : Prop :=
  '*' ∈ s ∨ '?' ∈ s

instance (s : List Char) : Decidable (HasWildcard s) :=
  inferInstanceAs (Decidable (_ ∨ _))

theorem Plainly.of_isInfix {s t : List Char} (ht : Plainly t) (h : s <:+: t) : Plainly s :=
  ⟨fun hmem ↦ ht.bracket (h.subset hmem), fun hstars ↦ ht.asterisks (hstars.trans h)⟩

theorem plainly_of_not_mem {s : List Char} (hbracket : '[' ∉ s) (hasterisk : '*' ∉ s) :
    Plainly s :=
  ⟨hbracket, fun h ↦ hasterisk (h.subset List.mem_cons_self)⟩

theorem HasWildcard.of_isInfix {s t : List Char} (hs : HasWildcard s) (h : s <:+: t) :
    HasWildcard t :=
  hs.imp (fun hmem ↦ h.subset hmem) fun hmem ↦ h.subset hmem

/-- The parts of a text are in it. -/
theorem isInfix_of_mem_splitOn {separator : Char} {s part : List Char}
    (h : part ∈ splitOn separator s) : part <:+: s := by
  induction s generalizing part with
  | nil => exact List.mem_singleton.1 h ▸ List.infix_rfl
  | cons c cs ih =>
    rw [splitOn] at h
    split at h
    · rcases List.mem_cons.1 h with rfl | h
      · exact List.nil_infix
      · exact (ih h).trans (List.suffix_cons c cs).isInfix
    · obtain ⟨parts, hparts⟩ := exists_splitOn_eq separator cs
      rw [hparts] at h ih
      rcases List.mem_cons.1 h with rfl | h
      · exact (List.cons_prefix_cons.2 ⟨rfl, List.takeWhile_prefix _⟩).isInfix
      · exact (ih (List.mem_cons_of_mem _ h)).trans (List.suffix_cons c cs).isInfix

/-! ### What fits a text -/

/-- A name fits a text with wildcards: characters that a question mark stands for, any characters
for an asterisk, and otherwise the same. -/
inductive Fits : List Char → List Char → Prop
  | nil : Fits [] []
  | one {ps cs : List Char} (c : Char) (h : Fits ps cs) : Fits ('?' :: ps) (c :: cs)
  | last {ps cs : List Char} (h : Fits ps cs) : Fits ('*' :: ps) cs
  | more {ps cs : List Char} (c : Char) (h : Fits ('*' :: ps) cs) : Fits ('*' :: ps) (c :: cs)
  | same {ps cs : List Char} {c : Char} (hc : c ≠ '*' ∧ c ≠ '?') (h : Fits ps cs) :
      Fits (c :: ps) (c :: cs)

/-- Every text fits itself. -/
theorem Fits.refl (s : List Char) : Fits s s := by
  induction s with
  | nil => exact .nil
  | cons c s ih =>
    by_cases hstar : c = '*'
    · subst hstar
      exact .more '*' (.last ih)
    by_cases hmark : c = '?'
    · subst hmark
      exact .one '?' ih
    · exact .same ⟨hstar, hmark⟩ ih

/-- What fits an asterisk and more ends with what fits the rest. -/
theorem fits_asterisk_iff {ps cs : List Char} :
    Fits ('*' :: ps) cs ↔ ∃ rest ∈ Pattern.suffixes cs, Fits ps rest := by
  induction cs with
  | nil =>
    rw [Pattern.suffixes]
    constructor
    · intro h
      cases h with
      | last h => exact ⟨[], List.mem_cons_self, h⟩
    · rintro ⟨rest, hrest, h⟩
      exact .last (List.mem_singleton.1 hrest ▸ h)
  | cons c cs ih =>
    rw [Pattern.suffixes]
    constructor
    · intro h
      cases h with
      | last h => exact ⟨c :: cs, List.mem_cons_self, h⟩
      | more _ h =>
        obtain ⟨rest, hrest, h⟩ := ih.1 h
        exact ⟨rest, List.mem_cons_of_mem _ hrest, h⟩
      | same hc _ => exact absurd rfl hc.1
    · rintro ⟨rest, hrest, h⟩
      rcases List.mem_cons.1 hrest with rfl | hrest
      · exact .last h
      · exact .more c (ih.2 ⟨rest, hrest, h⟩)

theorem fits_mark_iff {ps cs : List Char} :
    Fits ('?' :: ps) cs ↔ ∃ c rest, cs = c :: rest ∧ Fits ps rest := by
  constructor
  · intro h
    cases h with
    | one c h => exact ⟨c, _, rfl, h⟩
    | same hc _ => exact absurd rfl hc.2
  · rintro ⟨c, rest, rfl, h⟩
    exact .one c h

theorem fits_cons_iff {p : Char} {ps cs : List Char} (hp : p ≠ '*' ∧ p ≠ '?') :
    Fits (p :: ps) cs ↔ ∃ rest, cs = p :: rest ∧ Fits ps rest := by
  constructor
  · intro h
    cases h with
    | one => exact absurd rfl hp.2
    | last | more => exact absurd rfl hp.1
    | same _ h => exact ⟨_, rfl, h⟩
  · rintro ⟨rest, rfl, h⟩
    exact .same hp h

/-! ### Texts as patterns -/

namespace Pattern

/-- What a character of such a text stands for. -/
def wildcardOf (c : Char) : Wildcard :=
  if c = '*' then .anyText else if c = '?' then .anyChar else .char c

theorem wildcardOf_of_ne {c : Char} (hc : c ≠ '*' ∧ c ≠ '?') : wildcardOf c = .char c := by
  rw [wildcardOf, if_neg hc.1, if_neg hc.2]

theorem eq_of_wildcardOf_eq_char {c d : Char} (h : wildcardOf c = .char d) : c = d := by
  rw [wildcardOf] at h
  split at h
  · exact Wildcard.noConfusion h
  split at h
  · exact Wildcard.noConfusion h
  · exact Wildcard.char.inj h

/-- **A text without brackets and double asterisks is read character by character.** -/
theorem wildcards_eq_map {s : List Char} (h : Plainly s) (position : Nat) (front : Bool) :
    wildcards position front s = .ok (s.map wildcardOf) := by
  induction s generalizing position front with
  | nil => rw [wildcards]; rfl
  | cons c cs ih =>
    have hcs : Plainly cs := h.of_isInfix (List.suffix_cons c cs).isInfix
    have hnext : ∀ (w : Wildcard) (n : Nat) (b : Bool), w = wildcardOf c →
        (do return w :: (← wildcards n b cs)) = Except.ok ((c :: cs).map wildcardOf) := by
      rintro w n b rfl
      rw [ih hcs n b]
      rfl
    rw [wildcards.eq_def]
    split
    · next hs => cases hs
    · next hs =>
      cases hs
      exact hnext _ _ _ rfl
    · next rest hs =>
      cases hs
      exact absurd ⟨[], '*' :: rest, rfl⟩ h.asterisks
    · next rest _ hs =>
      cases hs
      exact absurd ⟨[], rest, rfl⟩ h.asterisks
    · next hs =>
      cases hs
      exact hnext _ _ _ rfl
    · next hs =>
      cases hs
      exact absurd List.mem_cons_self h.bracket
    · next hmark _ _ hstar _ hs =>
      cases hs
      exact hnext _ _ _ (wildcardOf_of_ne ⟨hstar, hmark⟩).symm

theorem read_eq_map {s : List Char} (h : Plainly s) : read s = .ok (s.map wildcardOf) :=
  wildcards_eq_map h 0 true

/-- What such a text means as a pattern is what fits it. -/
theorem accepts_iff_fits (s name : List Char) :
    accepts (s.map wildcardOf) name = true ↔ Fits s name := by
  induction s generalizing name with
  | nil =>
    rw [List.map_nil, accepts, List.isEmpty_iff]
    refine ⟨?_, fun h ↦ by cases h; rfl⟩
    rintro rfl
    exact .nil
  | cons c s ih =>
    rw [List.map_cons]
    by_cases hstar : c = '*'
    · subst hstar
      rw [show wildcardOf '*' = .anyText from rfl, accepts, List.any_eq_true, fits_asterisk_iff]
      exact exists_congr fun rest ↦ and_congr_right fun _ ↦ ih rest
    by_cases hmark : c = '?'
    · subst hmark
      rw [show wildcardOf '?' = .anyChar from rfl, fits_mark_iff]
      cases name with
      | nil => simp [accepts]
      | cons d name => simp [accepts, acceptsChar, ih]
    · rw [wildcardOf_of_ne ⟨hstar, hmark⟩, fits_cons_iff ⟨hstar, hmark⟩]
      cases name with
      | nil => simp [accepts]
      | cons d name => simp [accepts, acceptsChar, ih, and_assoc]

instance (s name : List Char) : Decidable (Fits s name) :=
  decidable_of_iff _ (accepts_iff_fits s name)

/-- Such a text spells out a name if it has no wildcard. -/
theorem spelled?_map (s : List Char) :
    spelled? (s.map wildcardOf) = if HasWildcard s then none else some s := by
  induction s with
  | nil => rfl
  | cons c s ih =>
    rw [List.map_cons]
    by_cases hstar : c = '*'
    · subst hstar
      rw [if_pos (.inl List.mem_cons_self)]
      rfl
    by_cases hmark : c = '?'
    · subst hmark
      rw [if_pos (.inr List.mem_cons_self)]
      rfl
    · have hrest : HasWildcard (c :: s) ↔ HasWildcard s := by
        simp [HasWildcard, Ne.symm hstar, Ne.symm hmark]
      rw [wildcardOf_of_ne ⟨hstar, hmark⟩, spelled?, ih]
      simp only [hrest]
      split <;> rfl

end Pattern

/-- The step for a piece of a path. -/
def PatternStep.ofPiece (piece : List Char) : PatternStep :=
  if HasWildcard piece then choose (piece.map Pattern.wildcardOf)
  else follow (String.ofList piece)

theorem PatternStep.ofPattern_map (piece : List Char) :
    ofPattern (piece.map Pattern.wildcardOf) = ofPiece piece := by
  have hdirectories : piece.map Pattern.wildcardOf ≠ [.directories] := by
    intro h
    obtain ⟨c, -, hc⟩ := List.map_eq_singleton_iff.1 h
    rw [Pattern.wildcardOf] at hc
    split at hc
    · exact Wildcard.noConfusion hc
    split at hc <;> exact Wildcard.noConfusion hc
  rw [ofPattern, if_neg hdirectories, Pattern.spelled?_map, ofPiece]
  by_cases h : HasWildcard piece
  · rw [if_pos h, if_pos h]
  · rw [if_neg h, if_neg h]

namespace PathPattern

theorem stepsOfPieces_eq_map {pieces : List (List Char)} (h : ∀ piece ∈ pieces, Plainly piece) :
    stepsOfPieces pieces = .ok (pieces.map PatternStep.ofPiece) := by
  induction pieces with
  | nil => rfl
  | cons piece pieces ih =>
    obtain ⟨hpiece, hpieces⟩ := List.forall_mem_cons.1 h
    rw [stepsOfPieces, Pattern.read_eq_map hpiece, ih hpieces, List.map_cons,
      ← PatternStep.ofPattern_map]
    rfl

/-- Pieces that do not end with an empty one are all read. -/
theorem dropLastEmpty_concat {before : List (List Char)} {piece : List Char} (h : piece ≠ []) :
    dropLastEmpty (before ++ [piece]) = before ++ [piece] := by
  induction before with
  | nil =>
    cases piece with
    | nil => exact absurd rfl h
    | cons c cs => rfl
  | cons first before ih =>
    rw [List.cons_append, dropLastEmpty, ih]
    simp

/-- Where the steps of a path begin. -/
def originOf (path : String) : String :=
  if path.toList.head? = some '/' then "/" else "."

/-- A path whose last piece is not empty does not end with a slash. -/
theorem not_meansDirectory {fs : FileSystem} {path : String} {here : Place}
    {before : List (List Char)} {piece : List Char}
    (hstart : fs.start path = (here, before ++ [piece])) (hpiece : piece ≠ []) :
    Path.meansDirectory path = false := by
  rw [Path.meansDirectory, beq_eq_false_iff_ne]
  intro hslash
  obtain ⟨t, ht⟩ := List.getLast?_eq_some_iff.1 hslash
  obtain ⟨here', before', hpieces⟩ := fs.exists_start_of_slash t
  have hempty := hpieces path [] List.not_mem_nil ht
  rw [hstart] at hempty
  exact hpiece (List.singleton_inj.1 (List.append_inj' (congrArg Prod.snd hempty) rfl).2)

/-- **A path without brackets and double asterisks is read piece by piece.** -/
theorem read_eq {fs : FileSystem} {path : String} (h : Plainly path.toList) {here : Place}
    {before : List (List Char)} {piece : List Char}
    (hstart : fs.start path = (here, before ++ [piece])) (hpiece : piece ≠ []) :
    read path =
      .ok ⟨originOf path, (before ++ [piece]).map PatternStep.ofPiece, false⟩ := by
  have hsteps : ∀ cs, cs <:+: path.toList → splitOn '/' cs = before ++ [piece] →
      stepsOfPieces (dropLastEmpty (splitOn '/' cs)) =
        .ok ((before ++ [piece]).map PatternStep.ofPiece) := by
    intro cs hcs hpieces
    have hplainly : ∀ part ∈ splitOn '/' cs, Plainly part :=
      fun part hpart ↦ h.of_isInfix ((isInfix_of_mem_splitOn hpart).trans hcs)
    rw [hpieces] at hplainly ⊢
    rw [dropLastEmpty_concat hpiece, stepsOfPieces_eq_map hplainly]
  rw [read, Pattern.read_eq_map h, originOf, not_meansDirectory hstart hpiece]
  by_cases hroot : path.toList.head? = some '/'
  · obtain ⟨cs, hcs⟩ := List.head?_eq_some_iff.1 hroot
    rw [FileSystem.start_root hcs] at hstart
    have hread := hsteps cs (hcs ▸ (List.suffix_cons '/' cs).isInfix) (congrArg Prod.snd hstart)
    rw [if_pos hroot]
    simp only [hcs]
    rw [hread]
    rfl
  · rw [FileSystem.start_relative hroot] at hstart
    have hread := hsteps path.toList List.infix_rfl (congrArg Prod.snd hstart)
    rw [if_neg hroot]
    split
    next origin relative hmatch =>
    split at hmatch
    · next hcs => exact absurd (by rw [hcs]; rfl) hroot
    · obtain ⟨rfl, rfl⟩ := Prod.mk.inj hmatch
      rw [hread]
      rfl

end PathPattern

end JsonEmbed
