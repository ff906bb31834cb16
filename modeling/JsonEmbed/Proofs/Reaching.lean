import JsonEmbed.Files.Expansion
import JsonEmbed.Proofs.Confinement
import JsonEmbed.Proofs.PlainNames
import Mathlib.Data.List.Nodup

/-!
# Paths on the way

A path `Reaches` a place if it leads there and something is there. Then the path of a name below it
leads where the name leads from this place, whether the path is joined to the name
(`Reaches.join`) or extended by it (`Reaches.extend`), which leaves out the working directory; and
the names of its entries are those that lead to something (`Reaches.mem_entryNames_iff`).

These are the steps that expanding a pattern takes. What they need of the file system, that names
are names and no place is listed twice, is `IsProper`.
-/

namespace JsonEmbed

namespace Path

/-! ### Names and pieces as paths -/

instance (name : String) : Decidable (IsFileName name) :=
  decidable_of_iff ('/' ∉ name.toList ∧ Names name.toList)
    ⟨fun h ↦ ⟨h.1, h.2⟩, fun h ↦ ⟨h.slash, h.names⟩⟩

/-- Only a dot stands for the working directory. -/
theorem eq_dot_of_component? {first : Bool} {piece : List Char}
    (h : component? first piece = some .current) : piece = ['.'] := by
  by_contra hdot
  rw [component?, if_neg hdot] at h
  split at h
  · exact absurd h (by simp)
  split at h <;> exact Component.noConfusion (Option.some.inj h)

theorem slash_not_mem_ofList {piece : List Char} (h : '/' ∉ piece) :
    '/' ∉ (String.ofList piece).toList := by
  rwa [String.toList_ofList]

/-- A single piece is a relative path. -/
theorem head?_ofList_ne {piece : List Char} (h : '/' ∉ piece) :
    (String.ofList piece).toList.head? ≠ some '/' :=
  fun hhead ↦ slash_not_mem_ofList h (List.mem_of_head? hhead)

/-- It has at most one component. -/
theorem components_ofList {piece : List Char} (h : '/' ∉ piece) :
    components (String.ofList piece) = (component? true piece).toList := by
  have hsplit : splitOn '/' (String.ofList piece).toList = [piece] := by
    rw [String.toList_ofList, splitOn_of_not_mem h]
  rw [components_relative (head?_ofList_ne h) hsplit, List.filterMap_nil, List.append_nil]

theorem join_ne_empty {path name : String} (hpath : path ≠ "") (hname : '/' ∉ name.toList) :
    join path name ≠ "" := by
  rw [ne_eq, ← String.toList_eq_nil_iff]
  rcases join_cases hpath with ⟨-, hjoin⟩ | ⟨front, -, -, hjoin⟩ <;> rw [hjoin name hname] <;> simp

/-- A path that does not begin with the working directory goes on so. -/
theorem head?_components_join {path : String} (hpath : path ≠ "") {piece : List Char}
    (hslash : '/' ∉ piece) (hcurrent : (components path).head? ≠ some .current) :
    (components (join path (String.ofList piece))).head? ≠ some .current := by
  rw [components_join hpath (slash_not_mem_ofList hslash), String.toList_ofList,
    List.head?_append, ne_eq, Option.or_eq_some_iff, not_or, Option.head?_toList]
  refine ⟨hcurrent, fun hlater ↦ ?_⟩
  have hdot := eq_dot_of_component? hlater.2
  exact absurd hlater.2 (by rw [hdot]; decide)

end Path

namespace FileSystem

variable {fs : FileSystem} {path : String} {here next : Place} {piece : List Char}

/-! ### Steps to what is there -/

/-- A piece that adds nothing leads to where it starts. -/
theorem eq_of_step (hpiece : piece = [] ∨ piece = ['.']) (h : fs.step here piece = .ok next) :
    here = next := by
  rw [step, get?_of_step h] at h
  simpa only [if_pos hpiece, Except.ok.injEq] using h

/-- A piece leads from a place to another one, and something is there. -/
structure StepsTo (fs : FileSystem) (here : Place) (piece : List Char) (next : Place) : Prop where
  step : fs.step here piece = .ok next
  there : fs.get? next ≠ none

/-- A name leads to the entry of this name. -/
theorem StepsTo.eq_append {name : String} (h : fs.StepsTo here name.toList next)
    (hname : Path.Names name.toList) : here ++ [name] = next := by
  have hstep := h.step
  rwa [step_of_names (get?_of_step hstep) hname, String.ofList_toList, Except.ok.injEq] at hstep

/-- Pieces lead from a place to another one, and something is there. -/
structure WalksTo (fs : FileSystem) (here : Place) (pieces : List (List Char)) (q : Place) :
    Prop where
  walk : fs.walk here pieces = .ok q
  there : fs.get? q ≠ none

/-- All that pieces lead through is there. -/
theorem walksTo_cons_iff {pieces : List (List Char)} {q : Place} :
    fs.WalksTo here (piece :: pieces) q ↔
      ∃ next, fs.StepsTo here piece next ∧ fs.WalksTo next pieces q := by
  constructor
  · rintro ⟨hwalk, hthere⟩
    rw [FileSystem.walk] at hwalk
    obtain ⟨next, hstep, hrest⟩ := exists_of_bind_eq_ok hwalk
    refine ⟨next, ⟨hstep, ?_⟩, hrest, hthere⟩
    rcases pieces with - | ⟨piece', pieces⟩
    · rw [Except.ok.inj hrest]
      exact hthere
    · obtain ⟨after, hstep', -⟩ := exists_of_bind_eq_ok hrest
      rw [get?_of_step hstep']
      exact Option.some_ne_none _
  · rintro ⟨next, ⟨hstep, -⟩, hrest, hthere⟩
    refine ⟨?_, hthere⟩
    rw [FileSystem.walk, hstep]
    exact hrest

/-! ### Going on from a path -/

/-- A path below a directory leads where its name leads from the place of the directory. -/
theorem place_join {name : String} (hpath : path ≠ "") (hname : '/' ∉ name.toList)
    (hplace : fs.place path = .ok here) :
    fs.place (Path.join path name) = fs.step here name.toList := by
  have hlast : ∀ {front : String}, front ≠ "" →
      (Path.join path name).toList = front.toList ++ '/' :: name.toList →
      fs.place front = .ok here → fs.place (Path.join path name) = fs.step here name.toList := by
    intro front hfront hjoin hplace
    rw [place_of_slash hfront hjoin, hplace, splitOn_of_not_mem hname]
    exact walk_singleton fs here name.toList
  rcases Path.join_cases hpath with ⟨hroot, hjoin⟩ | ⟨front, hfront, hends, hjoin⟩
  · have hstart : fs.start path = ([], [] ++ [[]]) := start_root hroot
    have hhere : here = [] := by
      rw [place, if_neg (by simpa using hpath), hstart] at hplace
      exact (Except.ok.inj hplace).symm
    have hstart' : fs.start (Path.join path name) = ([], [] ++ [name.toList]) := by
      rw [start_root (hjoin name hname), splitOn_of_not_mem hname]
      rfl
    have hnonempty := Path.join_ne_empty hpath hname
    rw [place, if_neg (by simpa using hnonempty), hstart', hhere]
    exact walk_singleton fs [] name.toList
  · rcases hends with rfl | hends
    · exact hlast hfront (hjoin name hname) hplace
    · -- the slash at the end leads to the place before it
      rw [place_of_slash hfront hends] at hplace
      obtain ⟨p, hp, hwalk⟩ := exists_of_bind_eq_ok hplace
      have hstep : fs.step p [] = .ok here := (walk_singleton fs p []).symm.trans hwalk
      exact hlast hfront (hjoin name hname) (eq_of_step (.inl rfl) hstep ▸ hp)

theorem exists_place_of_contains (h : fs.contains path = true) :
    ∃ p, fs.place path = .ok p ∧ fs.get? p ≠ none := by
  rw [contains, find] at h
  rcases hplace : fs.place path with e | p <;> rw [hplace] at h
  · exact absurd h Bool.false_ne_true
  · refine ⟨p, rfl, fun hnone ↦ ?_⟩
    simp only [bind, Except.bind, hnone] at h
    exact Bool.false_ne_true h

/-- A path leads to a place where something is, and names are looked for there: if the path says
nothing but the working directory, the place is the working directory. -/
structure Reaches (fs : FileSystem) (path : String) (here : Place) : Prop where
  named : path ≠ ""
  place : fs.place path = .ok here
  there : fs.get? here ≠ none
  home : Path.components path = [.current] → here = fs.workingDirectory

namespace Reaches

theorem find (h : fs.Reaches path here) : (fs.find path).toOption = fs.get? here := by
  rw [FileSystem.find, h.place]
  obtain ⟨e, he⟩ := Option.ne_none_iff_exists'.1 h.there
  simp only [bind, Except.bind, he]
  rfl

theorem contains (h : fs.Reaches path here) : fs.contains path = true := by
  rw [FileSystem.contains, h.find, Option.isSome_iff_ne_none]
  exact h.there

theorem isDirectory_iff (h : fs.Reaches path here) :
    fs.isDirectory path = true ↔ fs.get? here = some .directory := by
  rw [FileSystem.isDirectory, h.find, beq_iff_eq]

/-- A name is followed from the place that a path leads to. -/
theorem join (h : fs.Reaches path here) (hslash : '/' ∉ piece)
    (hsteps : fs.StepsTo here piece next) :
    fs.Reaches (Path.join path (String.ofList piece)) next := by
  have hslash' := Path.slash_not_mem_ofList hslash
  refine ⟨Path.join_ne_empty h.named hslash', ?_, hsteps.there, fun hcurrent ↦ ?_⟩
  · rw [place_join h.named hslash' h.place, String.toList_ofList, hsteps.step]
  -- only an empty piece and a dot add nothing to what the path says
  · rw [Path.components_join h.named hslash', String.toList_ofList] at hcurrent
    rcases Path.component?_cases piece with ⟨hpiece, hnone⟩ | ⟨-, hsome⟩ | ⟨-, hsome⟩
    · rw [hnone, Option.toList_none, List.append_nil] at hcurrent
      exact eq_of_step hpiece hsteps.step ▸ h.home hcurrent
    all_goals
      rw [hsome, Option.toList_some] at hcurrent
      have hlast := congrArg List.getLast? hcurrent
      rw [List.getLast?_concat] at hlast
      exact absurd (Option.some.inj hlast) Path.Component.noConfusion

/-- The path of an entry leads where its name leads, though the working directory leaves no trace
in it. -/
theorem place_extend (h : fs.Reaches path here) (hslash : '/' ∉ piece)
    (hempty : piece = [] → Path.components path ≠ [.current]) :
    fs.place (PathPattern.extend path (String.ofList piece)) = fs.step here piece := by
  rw [PathPattern.extend]
  split
  · next hcurrent =>
    have hpiece : piece ≠ [] := fun hpiece ↦ hempty hpiece hcurrent
    have hstart : fs.start (String.ofList piece) = (here, [] ++ [piece]) := by
      rw [start_relative (Path.head?_ofList_ne hslash), String.toList_ofList,
        splitOn_of_not_mem hslash, h.home hcurrent]
      rfl
    rw [place_of_start hstart hpiece]
    rfl
  · rw [place_join h.named (Path.slash_not_mem_ofList hslash) h.place, String.toList_ofList]

theorem extend (h : fs.Reaches path here) (hslash : '/' ∉ piece)
    (hempty : piece = [] → Path.components path ≠ [.current])
    (hsteps : fs.StepsTo here piece next) :
    fs.Reaches (PathPattern.extend path (String.ofList piece)) next := by
  by_cases hcurrent : Path.components path = [.current]
  · have hpiece : piece ≠ [] := fun hpiece ↦ hempty hpiece hcurrent
    have hplace := h.place_extend hslash hempty
    rw [PathPattern.extend, if_pos hcurrent] at hplace ⊢
    refine ⟨by simpa using hpiece, hplace.trans hsteps.step, hsteps.there, fun hdot ↦ ?_⟩
    rw [Path.components_ofList hslash, Option.toList_eq_singleton_iff] at hdot
    exact eq_of_step (.inr (Path.eq_dot_of_component? hdot)) hsteps.step ▸ h.home hcurrent
  · rw [PathPattern.extend, if_neg hcurrent]
    exact h.join hslash hsteps

end Reaches

/-! ### Entries of a directory -/

theorem mem_below_iff {way : Place} :
    way ∈ fs.below here ↔ way ≠ [] ∧ here ++ way ∈ fs.entries.map Prod.fst := by
  rw [below, List.mem_mergeSort, List.mem_filter, and_comm, List.mem_filterMap, List.mem_map]
  refine and_congr (by simp) (exists_congr fun e ↦ and_congr_right fun _ ↦ ?_)
  rw [List.isPrefixOf?_eq_some_iff_append_eq, eq_comm]

theorem nodup_below (h : (fs.entries.map Prod.fst).Nodup) (here : Place) :
    (fs.below here).Nodup := by
  have hways : (fs.entries.filterMap fun e ↦ here.isPrefixOf? e.1) =
      (fs.entries.map Prod.fst).filterMap here.isPrefixOf? := by
    rw [List.filterMap_map]
    rfl
  rw [below, hways, (List.mergeSort_perm _ _).nodup_iff]
  refine (h.filterMap fun p q way hp hq ↦ ?_).filter _
  rw [Option.mem_def, List.isPrefixOf?_eq_some_iff_append_eq] at hp hq
  exact hp.symm.trans hq

namespace Reaches

variable (h : fs.Reaches path here)

include h

theorem list (hdirectory : fs.get? here = some .directory) : fs.list path = fs.below here := by
  simp only [FileSystem.list, h.place, if_pos (h.isDirectory_iff.2 hdirectory)]

/-- The entries of a directory are what is there one name further on. -/
theorem mem_entryNames_iff (hdirectory : fs.get? here = some .directory) {name : String} :
    name ∈ PathPattern.entryNames fs path ↔ fs.get? (here ++ [name]) ≠ none := by
  rw [PathPattern.entryNames, h.list hdirectory, List.mem_filterMap,
    ← mem_places_iff_of_ne_nil (by simp)]
  constructor
  · rintro ⟨way, hway, hname⟩
    split at hname
    · rw [← Option.some.inj hname]
      exact (mem_below_iff.1 hway).2
    · exact absurd hname (by simp)
  · exact fun hmem ↦ ⟨[name], mem_below_iff.2 ⟨by simp, hmem⟩, rfl⟩

theorem nodup_entryNames (hnodup : (fs.entries.map Prod.fst).Nodup)
    (hdirectory : fs.get? here = some .directory) : (PathPattern.entryNames fs path).Nodup := by
  rw [PathPattern.entryNames, h.list hdirectory]
  refine (nodup_below hnodup here).filterMap fun a b name ha hb ↦ ?_
  rw [Option.mem_def] at ha hb
  split at ha
  · split at hb
    · rw [Option.some.inj ha, Option.some.inj hb]
    · exact absurd hb (by simp)
  · exact absurd ha (by simp)

end Reaches

/-- A file system as file systems are: a tree in which no place is listed twice, with names on the
way to every place. -/
structure IsProper (fs : FileSystem) : Prop where
  tree : fs.IsTree
  nodup : (fs.entries.map Prod.fst).Nodup
  named : ∀ e ∈ fs.entries, ∀ name ∈ e.1, Path.IsFileName name

theorem IsProper.isFileName (h : fs.IsProper) {name : String}
    (hthere : fs.get? (here ++ [name]) ≠ none) : Path.IsFileName name := by
  obtain ⟨e, he, hplace⟩ := List.mem_map.1 ((mem_places_iff_of_ne_nil (by simp)).2 hthere)
  exact h.named e he name (by rw [hplace]; exact List.mem_append_right _ List.mem_cons_self)

/-- In a tree a dot or two lead somewhere from every directory. -/
theorem IsTree.exists_stepsTo (h : fs.IsTree) (hhere : fs.get? here = some .directory)
    {name : String} (hname : name = "." ∨ name = "..") :
    ∃ next, fs.StepsTo here name.toList next := by
  have hback : fs.get? here.dropLast = some .directory := by
    by_cases hroot : here = []
    · rw [hroot]
      rfl
    · exact h here hroot (by simp [hhere])
  rcases hname with rfl | rfl
  · exact ⟨here, by rw [step, hhere]; rfl, by simp [hhere]⟩
  · exact ⟨here.dropLast, by rw [step, hhere]; rfl, by simp [hback]⟩

end FileSystem

end JsonEmbed
