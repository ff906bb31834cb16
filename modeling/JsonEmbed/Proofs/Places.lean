import JsonEmbed.Files.FileSystem
import Mathlib.Data.List.Basic

/-!
# Places in a directory

A path is followed piece by piece, and every piece needs a directory to start from. So a path that
leads somewhere leads there still after a change that takes no directory away
(`KeepsDirectories.place`), such as writing a file.

A directory `Leads` to a place if the path of every file name below it leads to that name in the
place. One file that is written below a directory shows where it leads (`exists_leads_of_write`),
and then every file that is written below it comes to the place of its own name
(`Leads.eq_set_of_write`).
-/

namespace JsonEmbed

/-! ### Steps and what they give -/

section Steps

variable {ε δ α β : Type} {x : Except ε α} {b : β} {e : ε}

/-- One step after another gives a result only if both do. -/
theorem exists_of_bind_eq_ok {f : α → Except ε β} (h : x >>= f = .ok b) :
    ∃ a, x = .ok a ∧ f a = .ok b := by
  cases x with
  | error e => exact absurd h (by simp [bind, Except.bind])
  | ok a => exact ⟨a, rfl, h⟩

theorem bind_eq_ok_iff {f : α → Except ε β} :
    x >>= f = .ok b ↔ ∃ a, x = .ok a ∧ f a = .ok b := by
  refine ⟨exists_of_bind_eq_ok, ?_⟩
  rintro ⟨a, rfl, h⟩
  exact h

theorem bind_ne_ok {f : α → Except ε β} (h : ∀ a, f a ≠ .ok b) : x >>= f ≠ .ok b := by
  intro hbind
  obtain ⟨a, -, ha⟩ := exists_of_bind_eq_ok hbind
  exact h a ha

theorem exists_of_map_eq_ok {f : α → β} (h : f <$> x = .ok b) : ∃ a, x = .ok a ∧ f a = b := by
  cases x with
  | error e => exact absurd h (by simp [Functor.map, Except.map])
  | ok a => exact ⟨a, rfl, Except.ok.inj h⟩

/-- Another name for the failure changes no result. -/
theorem eq_ok_of_mapError {a : α} {f : ε → δ} (h : x.mapError f = .ok a) : x = .ok a := by
  cases x with
  | error e => exact absurd h (by simp [Except.mapError])
  | ok b => exact congrArg Except.ok (Except.ok.inj h)

end Steps

namespace Path

/-! ### Names of files -/

/-- A piece of a path that names something: it is not passed over, and does not lead back. -/
def Names (piece : List Char) : Prop :=
  piece ≠ [] ∧ piece ≠ ['.'] ∧ piece ≠ ['.', '.']

instance (piece : List Char) : Decidable (Names piece) :=
  inferInstanceAs (Decidable (_ ∧ _))

/-- The name of a file: a piece of its own, which names something. -/
structure IsFileName (name : String) : Prop where
  slash : '/' ∉ name.toList
  names : Names name.toList

/-- The path of a name below a directory is the name behind a slash. The directory is the root, or
it is what stands before the slash, up to a slash at its own end. -/
theorem join_cases {directory : String} (hdirectory : directory ≠ "") :
    (directory.toList = ['/'] ∧ ∀ name : String, '/' ∉ name.toList →
      (join directory name).toList = '/' :: name.toList) ∨
    ∃ front : String, front ≠ "" ∧
      (directory = front ∨ directory.toList = front.toList ++ ['/']) ∧
      ∀ name : String, '/' ∉ name.toList →
        (join directory name).toList = front.toList ++ '/' :: name.toList := by
  have hrelative : ∀ name : String, '/' ∉ name.toList → ¬name.toList.head? = some '/' :=
    fun _ hname hhead ↦ hname (List.mem_of_head? hhead)
  by_cases hslash : directory.toList.getLast? = some '/'
  · obtain ⟨t, ht⟩ := List.getLast?_eq_some_iff.1 hslash
    have hjoin : ∀ name : String, '/' ∉ name.toList →
        (join directory name).toList = t ++ '/' :: name.toList := by
      intro name hname
      rw [join, if_neg (hrelative name hname), if_pos (Or.inr hslash), String.toList_append, ht,
        List.append_assoc, List.singleton_append]
    rcases t with - | ⟨c, t⟩
    · exact .inl ⟨ht, hjoin⟩
    · rw [← String.toList_ofList (l := c :: t)] at ht hjoin
      exact .inr ⟨String.ofList (c :: t), by simp, .inr ht, hjoin⟩
  · refine .inr ⟨directory, hdirectory, .inl rfl, fun name hname ↦ ?_⟩
    rw [join, if_neg (hrelative name hname), if_neg (by simp [hdirectory, hslash]),
      String.toList_append, String.toList_append, List.append_assoc]
    rfl

/-- The path of a name below a directory is the name behind something that ends with a slash, or
behind nothing. -/
theorem exists_toList_join (directory : String) :
    ∃ front : List Char, (front = [] ∨ ∃ t, front = t ++ ['/']) ∧
      ∀ name : String, '/' ∉ name.toList → (join directory name).toList = front ++ name.toList := by
  by_cases hdirectory : directory = ""
  · subst hdirectory
    refine ⟨[], .inl rfl, fun name hname ↦ ?_⟩
    rw [join, if_neg fun hhead ↦ hname (List.mem_of_head? hhead),
      if_pos (.inl (String.isEmpty_iff.2 rfl)), String.toList_append]
    rfl
  rcases join_cases hdirectory with ⟨-, hjoin⟩ | ⟨front, -, -, hjoin⟩
  · exact ⟨['/'], .inr ⟨[], rfl⟩, hjoin⟩
  · refine ⟨front.toList ++ ['/'], .inr ⟨_, rfl⟩, fun name hname ↦ ?_⟩
    rw [hjoin name hname, List.append_assoc, List.singleton_append]

end Path

namespace FileSystem

variable {fs : FileSystem}

/-! ### Following a path -/

/-- What is at a place other than the root is an entry. -/
theorem mem_places_iff_of_ne_nil {p : Place} (hp : p ≠ []) :
    p ∈ fs.entries.map Prod.fst ↔ fs.get? p ≠ none := by
  rw [get?, if_neg hp, ← Option.isSome_iff_ne_none, List.lookup_isSome_iff, List.mem_map]
  exact exists_congr fun e ↦ and_congr_right fun _ ↦ by rw [beq_iff_eq, eq_comm]

/-- Every step starts from a directory. -/
theorem get?_of_step {here next : Place} {piece : List Char}
    (h : fs.step here piece = .ok next) : fs.get? here = some .directory := by
  rw [step] at h
  split at h
  · exact absurd h (by simp)
  · exact absurd h (by simp)
  · assumption

/-- A piece that names something leads to its name. -/
theorem step_of_names {here : Place} {piece : List Char} (h : fs.get? here = some .directory)
    (hpiece : Path.Names piece) : fs.step here piece = .ok (here ++ [String.ofList piece]) := by
  obtain ⟨hempty, hdot, hdots⟩ := hpiece
  rw [step, h]
  simp only [hempty, hdot, hdots, or_self, if_false]

/-- Some pieces are followed, and then the others. -/
theorem walk_append (fs : FileSystem) (here : Place) (a b : List (List Char)) :
    fs.walk here (a ++ b) = fs.walk here a >>= fun next ↦ fs.walk next b := by
  induction a generalizing here with
  | nil => rfl
  | cons piece a ih =>
    rw [List.cons_append, FileSystem.walk, FileSystem.walk]
    cases fs.step here piece with
    | error e => rfl
    | ok next => exact ih next

/-- One piece is followed by one step. -/
theorem walk_singleton (fs : FileSystem) (here : Place) (piece : List Char) :
    fs.walk here [piece] = fs.step here piece := by
  show (fs.step here piece >>= fun p ↦ .ok p) = fs.step here piece
  cases fs.step here piece <;> rfl

/-- The last piece of a path is followed last. -/
theorem walk_concat (here : Place) (before : List (List Char)) (piece : List Char) :
    fs.walk here (before ++ [piece]) = fs.walk here before >>= fun next ↦ fs.step next piece := by
  rw [walk_append, funext fun next ↦ walk_singleton fs next piece]

theorem start_root {path : String} {cs : List Char} (h : path.toList = '/' :: cs) :
    fs.start path = ([], splitOn '/' cs) := by
  simp only [start, h]

theorem start_relative {path : String} (h : path.toList.head? ≠ some '/') :
    fs.start path = (fs.workingDirectory, splitOn '/' path.toList) := by
  rw [start]
  split
  · next cs hcs => exact absurd (by rw [hcs]; rfl) h
  · rfl

/-- A path has a last piece. -/
theorem exists_start (fs : FileSystem) (path : String) :
    ∃ here before piece, fs.start path = (here, before ++ [piece]) := by
  have hconcat : ∀ cs : List Char, ∃ before piece, splitOn '/' cs = before ++ [piece] := by
    intro cs
    obtain ⟨before, piece, h⟩ := (List.eq_nil_or_concat _).resolve_left (splitOn_ne_nil '/' cs)
    exact ⟨before, piece, by rw [h, List.concat_eq_append]⟩
  by_cases h : path.toList.head? = some '/'
  · obtain ⟨cs, hcs⟩ := List.head?_eq_some_iff.1 h
    obtain ⟨before, piece, hpieces⟩ := hconcat cs
    exact ⟨[], before, piece, by rw [start_root hcs, hpieces]⟩
  · obtain ⟨before, piece, hpieces⟩ := hconcat path.toList
    exact ⟨fs.workingDirectory, before, piece, by rw [start_relative h, hpieces]⟩

/-- Paths that are alike up to a slash differ in what comes after it only. -/
theorem exists_start_of_slash (fs : FileSystem) (t : List Char) :
    ∃ here before, ∀ (path : String) (piece : List Char), '/' ∉ piece →
      path.toList = t ++ '/' :: piece → fs.start path = (here, before ++ [piece]) := by
  rcases t with - | ⟨c, t⟩
  · refine ⟨[], [], fun path piece hpiece hpath ↦ ?_⟩
    rw [start_root hpath, splitOn_of_not_mem hpiece]
    rfl
  -- the first character says where to start, and only the others are split if it is a slash
  by_cases hc : c = '/'
  · refine ⟨[], splitOn '/' t, fun path piece hpiece hpath ↦ ?_⟩
    have hroot : path.toList = '/' :: (t ++ '/' :: piece) := by
      rw [hpath, hc, List.cons_append]
    rw [start_root hroot, splitOn_append_cons, splitOn_of_not_mem hpiece]
  · refine ⟨fs.workingDirectory, splitOn '/' (c :: t), fun path piece hpiece hpath ↦ ?_⟩
    have hrelative : path.toList.head? ≠ some '/' := by
      rw [hpath]
      exact fun h ↦ hc (Option.some.inj h)
    rw [start_relative hrelative, hpath, splitOn_append_cons, splitOn_of_not_mem hpiece]

/-- Paths of names below a directory differ in their last piece only. -/
theorem exists_start_join (fs : FileSystem) (directory : String) :
    ∃ here before, ∀ name : String, Path.IsFileName name →
      fs.start (Path.join directory name) = (here, before ++ [name.toList]) := by
  obtain ⟨front, rfl | ⟨t, rfl⟩, hjoin⟩ := Path.exists_toList_join directory
  · refine ⟨fs.workingDirectory, [], fun name hname ↦ ?_⟩
    have hpath : (Path.join directory name).toList = name.toList := hjoin name hname.slash
    have hrelative : (Path.join directory name).toList.head? ≠ some '/' := by
      rw [hpath]
      exact fun hhead ↦ hname.slash (List.mem_of_head? hhead)
    rw [start_relative hrelative, hpath, splitOn_of_not_mem hname.slash]
    rfl
  · obtain ⟨here, before, hstart⟩ := fs.exists_start_of_slash t
    refine ⟨here, before, fun name hname ↦ hstart _ _ hname.slash ?_⟩
    rw [hjoin name hname.slash, List.append_assoc]
    rfl

section LastPiece

variable {path : String} {here : Place} {before : List (List Char)} {piece : List Char}

/-- An empty path has an empty last piece. -/
theorem not_isEmpty_of_start (h : fs.start path = (here, before ++ [piece]))
    (hpiece : piece ≠ []) : ¬path.isEmpty = true := by
  intro hempty
  rw [String.isEmpty_iff.1 hempty] at h
  have hpieces : [] ++ [[]] = before ++ [piece] := congrArg Prod.snd h
  exact hpiece (List.cons.inj (List.append_inj_right' hpieces rfl)).1.symm

/-- The last piece of a path is followed from where the others lead. -/
theorem place_of_start (h : fs.start path = (here, before ++ [piece])) (hpiece : piece ≠ []) :
    fs.place path = fs.walk here before >>= fun next ↦ fs.step next piece := by
  rw [place, if_neg (not_isEmpty_of_start h hpiece), h]
  exact walk_concat here before piece

/-- A path whose last piece names something leads to the place that it names as a new one. -/
theorem newPlace?_of_start (h : fs.start path = (here, before ++ [piece]))
    (hpiece : Path.Names piece) : fs.newPlace? path = some <$> fs.place path := by
  obtain ⟨hempty, hdot, hdots⟩ := hpiece
  have hlast : (before ++ [piece]).reverse.dropWhile List.isEmpty = piece :: before.reverse := by
    rw [List.reverse_append, List.reverse_singleton, List.singleton_append,
      List.dropWhile_cons_of_neg (by simpa using hempty)]
  rw [place_of_start h hempty, newPlace?, if_neg (not_isEmpty_of_start h hempty), h]
  simp only [hlast, List.reverse_reverse, hdot, hdots, or_self, if_false]
  cases fs.walk here before with
  | error e => rfl
  | ok next =>
    show (fs.step next piece >>= fun p ↦ pure (some p)) = some <$> fs.step next piece
    cases fs.step next piece <;> rfl

/-- What is written goes to the place that the path names as a new one, and there is no directory
there. -/
theorem exists_newPlace?_of_write {bytes : Bytes} {after : FileSystem}
    (hwrite : fs.write path bytes = .ok after) :
    ∃ p, fs.newPlace? path = .ok (some p) ∧ fs.get? p ≠ some .directory ∧
      after = fs.set p (.file bytes) := by
  rw [write] at hwrite
  obtain ⟨found, hfound, hwrite⟩ := exists_of_bind_eq_ok hwrite
  cases found with
  | none => exact absurd hwrite (by simp)
  | some p =>
    change (if Path.meansDirectory path ∨ fs.get? p = some .directory then
      .error FileError.isDirectory else .ok (fs.set p (.file bytes))) = Except.ok after at hwrite
    split at hwrite
    · exact absurd hwrite (by simp)
    · next hdirectory =>
      exact ⟨p, hfound, (not_or.1 hdirectory).2, (Except.ok.inj hwrite).symm⟩

/-- If the last piece of the path names something, this is the place that the path leads to. -/
theorem eq_set_of_write (h : fs.start path = (here, before ++ [piece]))
    (hpiece : Path.Names piece) {bytes : Bytes} {after : FileSystem}
    (hwrite : fs.write path bytes = .ok after) :
    ∃ p, fs.place path = .ok p ∧ fs.get? p ≠ some .directory ∧ after = fs.set p (.file bytes) := by
  obtain ⟨p, hfound, hdirectory, hafter⟩ := exists_newPlace?_of_write hwrite
  rw [newPlace?_of_start h hpiece] at hfound
  obtain ⟨q, hplace, hq⟩ := exists_of_map_eq_ok hfound
  exact ⟨p, Option.some.inj hq ▸ hplace, hdirectory, hafter⟩

end LastPiece

/-! ### Changes that take no directory away -/

/-- All directories are still there, and relative paths start where they started. -/
structure KeepsDirectories (fs after : FileSystem) : Prop where
  home : after.workingDirectory = fs.workingDirectory
  there : ∀ {p}, fs.get? p = some .directory → after.get? p = some .directory

namespace KeepsDirectories

variable {after : FileSystem}

theorem refl (fs : FileSystem) : KeepsDirectories fs fs :=
  ⟨rfl, id⟩

theorem trans {between : FileSystem} (h : KeepsDirectories fs between)
    (h' : KeepsDirectories between after) : KeepsDirectories fs after :=
  ⟨h'.home.trans h.home, fun hp ↦ h'.there (h.there hp)⟩

variable (h : KeepsDirectories fs after)

include h

theorem step {here next : Place} {piece : List Char} (hstep : fs.step here piece = .ok next) :
    after.step here piece = .ok next := by
  have hhere := get?_of_step hstep
  rw [FileSystem.step, hhere] at hstep
  rw [FileSystem.step, h.there hhere]
  exact hstep

theorem walk {here p : Place} {pieces : List (List Char)} (hwalk : fs.walk here pieces = .ok p) :
    after.walk here pieces = .ok p := by
  induction pieces generalizing here with
  | nil => exact hwalk
  | cons piece pieces ih =>
    rw [FileSystem.walk] at hwalk ⊢
    obtain ⟨next, hstep, hrest⟩ := exists_of_bind_eq_ok hwalk
    rw [h.step hstep]
    exact ih hrest

theorem start (path : String) : after.start path = fs.start path := by
  rw [FileSystem.start, FileSystem.start, h.home]

/-- A path leads where it led. -/
theorem place {path : String} {p : Place} (hplace : fs.place path = .ok p) :
    after.place path = .ok p := by
  rw [FileSystem.place] at hplace ⊢
  split at hplace
  · exact absurd hplace (by simp)
  · next hpath =>
    rw [if_neg hpath, h.start]
    exact h.walk hplace

end KeepsDirectories

section SetFile

variable {q : Place} {bytes : Bytes}

/-- What is at a place after a file has been written where there is no directory, and so not at the
root. -/
theorem get?_set_of_not_directory (hq : fs.get? q ≠ some .directory) (p : Place) :
    (fs.set q (.file bytes)).get? p = if p = q then some (.file bytes) else fs.get? p :=
  get?_set fs _ p fun hroot ↦ hq (by rw [hroot]; rfl)

/-- Writing a file takes no directory away. -/
theorem keepsDirectories_set_file (hq : fs.get? q ≠ some .directory) :
    KeepsDirectories fs (fs.set q (.file bytes)) where
  home := rfl
  there {p} hp := by
    have hne : p ≠ q := fun hpq ↦ hq (hpq ▸ hp)
    rw [get?_set_of_not_directory hq, if_neg hne, hp]

end SetFile

/-! ### Files below a directory -/

/-- The path of a directory leads to a place: there is a directory, and the path of every file name
below it leads to the name in this place. -/
structure Leads (fs : FileSystem) (directory : String) (p : Place) : Prop where
  there : fs.get? p = some .directory
  below : ∀ name, Path.IsFileName name →
    fs.place (Path.join directory name) = .ok (p ++ [name])

/-- A path of a file name below a directory shows where the directory leads. -/
theorem exists_leads_of_place {directory name : String} (hname : Path.IsFileName name) {q : Place}
    (h : fs.place (Path.join directory name) = .ok q) : ∃ p, Leads fs directory p := by
  obtain ⟨here, before, hstart⟩ := exists_start_join fs directory
  have hplace : ∀ n, Path.IsFileName n → fs.place (Path.join directory n) =
      fs.walk here before >>= fun next ↦ fs.step next n.toList :=
    fun n hn ↦ place_of_start (hstart n hn) hn.names.1
  rw [hplace name hname] at h
  obtain ⟨p, hwalk, hstep⟩ := exists_of_bind_eq_ok h
  have hp : fs.get? p = some .directory := get?_of_step hstep
  refine ⟨p, hp, fun n hn ↦ ?_⟩
  rw [hplace n hn, hwalk]
  show fs.step p n.toList = .ok (p ++ [n])
  rw [step_of_names hp hn.names, String.ofList_toList]

section Leads

variable {directory : String} {p : Place} {name : String} {bytes : Bytes} {after : FileSystem}

/-- One file that is written below a directory shows where it leads. -/
theorem exists_leads_of_write (hname : Path.IsFileName name)
    (h : fs.write (Path.join directory name) bytes = .ok after) : ∃ p, Leads fs directory p := by
  obtain ⟨here, before, hstart⟩ := exists_start_join fs directory
  obtain ⟨q, hplace, -⟩ := eq_set_of_write (hstart name hname) hname.names h
  exact exists_leads_of_place hname hplace

/-- What is written below a directory goes to the place of its name. -/
theorem Leads.eq_set_of_write (hleads : Leads fs directory p) (hname : Path.IsFileName name)
    (h : fs.write (Path.join directory name) bytes = .ok after) :
    fs.get? (p ++ [name]) ≠ some .directory ∧ after = fs.set (p ++ [name]) (.file bytes) := by
  obtain ⟨here, before, hstart⟩ := exists_start_join fs directory
  obtain ⟨q, hplace, hq, hafter⟩ :=
    FileSystem.eq_set_of_write (hstart name hname) hname.names h
  rw [hleads.below name hname] at hplace
  obtain rfl : p ++ [name] = q := Except.ok.inj hplace
  exact ⟨hq, hafter⟩

/-- A directory leads where it led before a file was written. -/
theorem Leads.set_file (hleads : Leads fs directory p) {q : Place}
    (hq : fs.get? q ≠ some .directory) : Leads (fs.set q (.file bytes)) directory p :=
  have hkeeps := keepsDirectories_set_file hq
  ⟨hkeeps.there hleads.there, fun n hn ↦ hkeeps.place (hleads.below n hn)⟩

/-- A file below a directory is read by its name. -/
theorem Leads.read (hleads : Leads fs directory p) (hname : Path.IsFileName name)
    (h : fs.get? (p ++ [name]) = some (.file bytes)) :
    fs.read (Path.join directory name) = .ok bytes := by
  simp only [FileSystem.read, find, hleads.below name hname, bind, Except.bind, h]

end Leads

/-! ### Files that can be read -/

/-- A file system as file systems are: everything that is there is in a directory. -/
def IsTree (fs : FileSystem) : Prop :=
  ∀ p ≠ [], fs.get? p ≠ none → fs.get? p.dropLast = some .directory

/-- That a file system is a tree can be seen from its entries. -/
theorem isTree_of_entries
    (h : ∀ e ∈ fs.entries, fs.get? e.1.dropLast = some .directory) : fs.IsTree := by
  intro p hp hthere
  rw [get?, if_neg hp, ne_eq, List.lookup_eq_none_iff, not_forall] at hthere
  obtain ⟨e, he⟩ := hthere
  obtain ⟨hmem, hkey⟩ := Classical.not_imp.1 he
  have hpe : p = e.1 := by simpa using hkey
  exact hpe ▸ h e hmem

/-- What is read is a file at the place that the path leads to. -/
theorem exists_place_of_read {path : String} {bytes : Bytes} (h : fs.read path = .ok bytes) :
    ∃ p, fs.place path = .ok p ∧ fs.get? p = some (.file bytes) := by
  rw [read] at h
  obtain ⟨e, hfind, hread⟩ := exists_of_bind_eq_ok h
  rw [find] at hfind
  obtain ⟨p, hplace, hp⟩ := exists_of_bind_eq_ok hfind
  refine ⟨p, hplace, ?_⟩
  split at hp
  · next found hfound =>
    rw [hfound, Except.ok.inj hp]
    cases e with
    | directory => exact absurd hread (by simp)
    | file content => rw [Except.ok.inj hread]
  · exact absurd hp (by simp)

/-- What leads to a file has a name for its last piece: any other piece leads from a directory to a
directory. -/
theorem names_of_read (hfs : fs.IsTree) {path : String} {bytes : Bytes}
    (h : fs.read path = .ok bytes) {here : Place} {before : List (List Char)} {piece : List Char}
    (hstart : fs.start path = (here, before ++ [piece])) : Path.Names piece := by
  obtain ⟨q, hplace, hq⟩ := exists_place_of_read h
  have hwalk : (fs.walk here before >>= fun next ↦ fs.step next piece) = .ok q := by
    rw [← walk_concat]
    rw [place, hstart] at hplace
    split at hplace
    · exact absurd hplace (by simp)
    · exact hplace
  obtain ⟨next, -, hstep⟩ := exists_of_bind_eq_ok hwalk
  have hdirectory := get?_of_step hstep
  have hparent : fs.get? next.dropLast = some .directory := by
    by_cases hroot : next = []
    · rw [hroot]
      rfl
    · exact hfs next hroot (by simp [hdirectory])
  have hfile : ∀ p, fs.get? p = some .directory → p ≠ q := by
    rintro p hp rfl
    rw [hp] at hq
    exact absurd hq (by simp)
  rw [step, hdirectory] at hstep
  refine ⟨?_, ?_, ?_⟩
  · rintro rfl
    exact hfile next hdirectory (by simpa using hstep)
  · rintro rfl
    exact hfile next hdirectory (by simpa using hstep)
  · rintro rfl
    exact hfile next.dropLast hparent (by simpa using hstep)

end FileSystem

end JsonEmbed
