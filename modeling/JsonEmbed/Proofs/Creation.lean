import JsonEmbed.Proofs.Failures
import Mathlib.Data.List.TakeWhile

/-!
# Directories made on the way

Making a directory and what is missing on the way to it makes nothing else: each directory that was
not there is one that a leading part of the path leads to (`madeAlong_createAll`), even if the
making stops halfway.

The parts come from dropping the last component of a path again and again. That a part still leads
where it led after more has been made is what the steps need from each other; it holds because no
directory is taken away.
-/

namespace JsonEmbed

/-! ### Leading parts of a path -/

theorem joinWith_cons (separator : Char) (part : List Char) {parts : List (List Char)}
    (h : parts ≠ []) :
    joinWith separator (part :: parts) = part ++ separator :: joinWith separator parts :=
  joinWith.eq_3 separator part parts h

/-- What is joined in two runs is joined by one more separator. -/
theorem joinWith_append (separator : Char) {a b : List (List Char)} (ha : a ≠ []) (hb : b ≠ []) :
    joinWith separator (a ++ b) = joinWith separator a ++ separator :: joinWith separator b := by
  induction a with
  | nil => exact absurd rfl ha
  | cons part a ih =>
    rcases a with - | ⟨next, a⟩
    · exact joinWith_cons separator part hb
    · rw [List.cons_append, joinWith_cons separator part (by simp), ih (by simp),
        joinWith_cons separator part (by simp), List.append_assoc, List.cons_append]

namespace Path

/-- A leading part of a path: the whole, or what a cut beside one of its slashes leaves. -/
def IsLeading (part path : String) : Prop :=
  ∃ rest, path.toList = part.toList ++ rest ∧
    (rest = [] ∨ rest.head? = some '/' ∨ part.toList.getLast? = some '/')

theorem IsLeading.refl (path : String) : IsLeading path path :=
  ⟨[], (List.append_nil _).symm, Or.inl rfl⟩

theorem IsLeading.trans {part mid path : String} (h : IsLeading part mid)
    (h' : IsLeading mid path) : IsLeading part path := by
  obtain ⟨a, hmid, ha⟩ := h
  obtain ⟨b, hpath, hb⟩ := h'
  refine ⟨a ++ b, by rw [hpath, hmid, List.append_assoc], ?_⟩
  rcases a with - | ⟨c, a⟩
  · -- both parts are the same, so the second cut is the only one
    have hsame : mid.toList = part.toList := by rw [hmid, List.append_nil]
    rwa [List.nil_append, ← hsame]
  · rcases ha with ha | ha | ha
    · exact absurd ha (by simp)
    · exact Or.inr (Or.inl ha)
    · exact Or.inr (Or.inr ha)

theorem dropSilent_suffix (pieces : List (List Char)) : dropSilent pieces <:+ pieces := by
  induction pieces with
  | nil => exact List.suffix_rfl
  | cons piece pieces ih =>
    rcases pieces with - | ⟨next, pieces⟩
    · exact List.suffix_rfl
    · rw [dropSilent]
      split
      · exact ih.trans (List.suffix_cons _ _)
      · exact List.suffix_rfl
      · simp

theorem dropSilent_ne_nil {pieces : List (List Char)} (h : pieces ≠ []) :
    dropSilent pieces ≠ [] := by
  induction pieces with
  | nil => exact absurd rfl h
  | cons piece pieces ih =>
    rcases pieces with - | ⟨next, pieces⟩
    · exact h
    · rw [dropSilent]
      split
      · exact ih (by simp)
      · exact h
      · simp

/-- The parent of a path is a leading part of it, unless nothing is left. -/
theorem isLeading_of_parent? {path parent : String} (h : parent? path = some parent) :
    parent = "" ∨ IsLeading parent path := by
  rw [parent?] at h
  split at h
  · exact absurd h (by simp)
  · exact absurd h (by simp)
  · exact Or.inl (Option.some.inj h).symm
  next last pieces _ hmore hdropped =>
    obtain ⟨silent, hsilent⟩ := dropSilent_suffix (splitOn '/' path.toList).reverse
    obtain ⟨passed, hpassed⟩ := dropSilent_suffix pieces
    have hkept : (dropSilent pieces).reverse ≠ [] := by
      simpa using dropSilent_ne_nil hmore
    -- what is kept stands at the front, and what was dropped behind it
    have hpieces : splitOn '/' path.toList =
        (dropSilent pieces).reverse ++ (silent ++ last :: passed).reverse := by
      rw [← List.reverse_append, ← List.reverse_inj, List.reverse_reverse, ← hsilent, hdropped]
      simp [hpassed]
    have hpath : path.toList = joinWith '/' (dropSilent pieces).reverse ++
        '/' :: joinWith '/' (silent ++ last :: passed).reverse := by
      rw [← joinWith_append _ hkept (by simp), ← hpieces, joinWith_splitOn]
    refine Or.inr ?_
    split at h
    · next hroot =>
      obtain rfl := Option.some.inj h
      rw [hroot] at hpath
      exact ⟨_, hpath, Or.inr (Or.inr rfl)⟩
    · obtain rfl := Option.some.inj h
      exact ⟨_, by rw [hpath, String.toList_ofList], Or.inr (Or.inl rfl)⟩

end Path

namespace FileSystem

variable {fs after : FileSystem} {path : String}

/-! ### Pieces of a path -/

/-- Empty pieces lead from a directory to itself. -/
theorem walk_of_forall_isEmpty {p : Place} (hp : fs.get? p = some .directory)
    {pieces : List (List Char)} (h : ∀ piece ∈ pieces, piece.isEmpty = true) :
    fs.walk p pieces = .ok p := by
  induction pieces with
  | nil => rfl
  | cons piece pieces ih =>
    obtain ⟨hpiece, hpieces⟩ := List.forall_mem_cons.1 h
    have hstep : fs.step p piece = .ok p := by
      rw [FileSystem.step, hp]
      exact if_pos (Or.inl (List.isEmpty_iff.1 hpiece))
    rw [FileSystem.walk, hstep]
    exact ih hpieces

/-! ### Making directories -/

/-- The place that a path names as a new one is reached by its last piece that is not empty. -/
theorem exists_step_of_newPlace? {p : Place} (h : fs.newPlace? path = .ok (some p)) :
    ∃ here before last silent next, path.isEmpty = false ∧
      fs.start path = (here, before ++ last :: silent) ∧
      (∀ piece ∈ silent, piece.isEmpty = true) ∧
      fs.walk here before = .ok next ∧ fs.step next last = .ok p := by
  rw [newPlace?] at h
  split at h
  · exact absurd h (by simp)
  next hempty =>
    rcases hstart : fs.start path with ⟨here, pieces⟩
    simp only [hstart] at h
    split at h
    · exact absurd h (by simp)
    next last before hlast =>
      obtain ⟨next, hwalk, hrest⟩ := exists_of_bind_eq_ok h
      obtain ⟨q, hstep, hdone⟩ := exists_of_bind_eq_ok hrest
      have hq : q = p := by
        have hfound := Except.ok.inj hdone
        split at hfound
        · exact absurd hfound (by simp)
        · exact Option.some.inj hfound
      have hpieces : pieces =
          before.reverse ++ last :: (pieces.reverse.takeWhile List.isEmpty).reverse := by
        rw [← List.reverse_inj, List.reverse_append, List.reverse_cons, List.reverse_reverse,
          List.reverse_reverse, List.append_assoc, List.singleton_append, ← hlast,
          List.takeWhile_append_dropWhile]
      exact ⟨here, before.reverse, last, (pieces.reverse.takeWhile List.isEmpty).reverse, next,
        by simpa using hempty, congrArg (Prod.mk here) hpieces,
        fun piece hpiece ↦ List.mem_takeWhile_imp (List.mem_reverse.1 hpiece), hwalk, hq ▸ hstep⟩

/-- Making directories takes none away. -/
theorem Grows.keepsDirectories (h : Grows fs after)
    (hhome : after.workingDirectory = fs.workingDirectory) : KeepsDirectories fs after where
  home := hhome
  there {p} hp := by
    rcases h p with hsame | ⟨hnone, -⟩
    · rw [hsame, hp]
    · rw [hp] at hnone
      exact absurd hnone (by simp)

/-- What making directories along a path leaves: the same places as before, and besides them
directories that leading parts of the path lead to. -/
structure MadeAlong (fs : FileSystem) (path : String) (after : FileSystem) : Prop where
  home : after.workingDirectory = fs.workingDirectory
  grows : fs.Grows after
  named : ∀ q, fs.get? q = none → after.get? q = some .directory →
    ∃ part, Path.IsLeading part path ∧ after.place part = .ok q

namespace MadeAlong

theorem refl (fs : FileSystem) (path : String) : MadeAlong fs path fs :=
  ⟨rfl, .refl fs, fun q hnone hthere ↦ absurd hthere (by simp [hnone])⟩

theorem keepsDirectories (h : MadeAlong fs path after) : KeepsDirectories fs after :=
  h.grows.keepsDirectories h.home

theorem trans {between : FileSystem} (h : MadeAlong fs path between)
    (h' : MadeAlong between path after) : MadeAlong fs path after where
  home := h'.home.trans h.home
  grows := h.grows.trans h'.grows
  named q hnone hthere := by
    rcases h.grows q with hsame | ⟨-, hmade⟩
    · exact h'.named q (hsame.trans hnone) hthere
    · obtain ⟨part, hpart, hplace⟩ := h.named q hnone hmade
      exact ⟨part, hpart, h'.keepsDirectories.place hplace⟩

/-- What is made along a leading part is made along the path. -/
theorem of_isLeading {part : String} (hpart : Path.IsLeading part path)
    (h : MadeAlong fs part after) : MadeAlong fs path after :=
  ⟨h.home, h.grows, fun q hnone hthere ↦
    (h.named q hnone hthere).imp fun _ ⟨hleading, hplace⟩ ↦ ⟨hleading.trans hpart, hplace⟩⟩

end MadeAlong

/-- Where a directory has been made, its path leads. -/
theorem madeAlong_makeDirectory (h : fs.makeDirectory path = .ok after) :
    MadeAlong fs path after := by
  have hgrows := grows_makeDirectory h
  rw [makeDirectory] at h
  obtain ⟨found, hfound, hmade⟩ := exists_of_bind_eq_ok h
  cases found with
  | none => exact absurd hmade (by simp)
  | some p =>
    cases hp : fs.get? p with
    | some e =>
      simp only [hp] at hmade
      exact absurd hmade (by simp)
    | none =>
      simp only [hp] at hmade
      obtain rfl : fs.set p .directory = after := Except.ok.inj hmade
      have hroot : p ≠ [] := by
        rintro rfl
        exact absurd hp (by simp [get?])
      have hthere : (fs.set p .directory).get? p = some .directory := by
        rw [get?_set fs _ p hroot, if_pos rfl]
      refine ⟨rfl, hgrows, fun q hnone hq ↦ ⟨path, .refl path, ?_⟩⟩
      obtain rfl : q = p := by
        by_contra hne
        rw [get?_set fs _ q hroot, if_neg hne, hnone] at hq
        exact absurd hq (by simp)
      obtain ⟨here, before, last, silent, next, hempty, hstart, hsilent, hwalk, hstep⟩ :=
        exists_step_of_newPlace? hfound
      have hkeeps : KeepsDirectories fs (fs.set q .directory) := hgrows.keepsDirectories rfl
      -- once the directory is there, the slashes after its name lead to it again
      rw [place, if_neg (by simp [hempty]), hkeeps.start, hstart]
      simp only [walk_append, hkeeps.walk hwalk]
      show (fs.set q .directory).walk next (last :: silent) = .ok q
      rw [FileSystem.walk, hkeeps.step hstep]
      exact walk_of_forall_isEmpty hthere hsilent

theorem madeAlong_ensure (fs : FileSystem) (path : String) :
    MadeAlong fs path (fs.ensure path).1 := by
  rw [ensure]
  split
  · next h => exact madeAlong_makeDirectory h
  · exact .refl fs path

theorem madeAlong_createWithin (fuel : Nat) (fs : FileSystem) (path : String) :
    MadeAlong fs path (createWithin fuel fs path).1 := by
  induction fuel generalizing path with
  | zero => exact .refl fs path
  | succ fuel ih =>
    rw [createWithin]
    split
    · exact .refl fs path
    split
    · split
      · exact .refl fs path
      next parent hparent =>
        have hmade : MadeAlong fs path (createWithin fuel fs parent).1 := by
          rcases Path.isLeading_of_parent? hparent with rfl | hleading
          · -- nothing is made for the empty path
            cases fuel with
            | zero => exact .refl fs path
            | succ fuel =>
              rw [createWithin, if_pos (by decide)]
              exact .refl fs path
          · exact (ih parent).of_isLeading hleading
        split
        · next between hdone =>
          rw [hdone] at hmade
          exact hmade.trans (madeAlong_ensure between path)
        · exact hmade
    · exact madeAlong_ensure fs path

/-- **Directories are made on the way to a path and nowhere else.** -/
theorem madeAlong_createAll (fs : FileSystem) (path : String) :
    MadeAlong fs path (fs.createAll path).1 :=
  madeAlong_createWithin _ fs path

end FileSystem

end JsonEmbed
