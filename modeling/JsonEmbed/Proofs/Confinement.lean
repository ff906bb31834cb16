import JsonEmbed.Proofs.Creation
import JsonEmbed.Proofs.GivenPaths

/-!
# Where a run writes

A run writes only where it is told to. `Allowed` lists what may become different: the directory and
what was missing on the way to it, and files in this directory whose names end in `.c`.

Paths of outputs are put together from a directory and a name. The name is a file name, whatever the
document was called, so what is written lies in the place that the directory leads to
(`exists_place_of_join`), and the directory leads there still when the run is over.
-/

namespace JsonEmbed

namespace FileSystem

variable {fs after : FileSystem} {path : String}

/-! ### Paths below a directory -/

/-- A path that goes on after a slash starts like the part before it. -/
theorem start_of_slash (hpath : path ≠ "") {longer : String} {rest : List Char}
    (h : longer.toList = path.toList ++ '/' :: rest) :
    fs.start longer = ((fs.start path).1, (fs.start path).2 ++ splitOn '/' rest) := by
  by_cases hroot : path.toList.head? = some '/'
  · obtain ⟨cs, hcs⟩ := List.head?_eq_some_iff.1 hroot
    have hlonger : longer.toList = '/' :: (cs ++ '/' :: rest) := by rw [h, hcs, List.cons_append]
    rw [start_root hcs, start_root hlonger, splitOn_append_cons]
  · have hrelative : longer.toList.head? ≠ some '/' := by
      rwa [h, List.head?_append_of_ne_nil _ (mt String.toList_eq_nil_iff.1 hpath)]
    rw [start_relative hroot, start_relative hrelative, h, splitOn_append_cons]

/-- What comes after a slash is followed from where the part before it leads. -/
theorem place_of_slash (hpath : path ≠ "") {longer : String} {rest : List Char}
    (h : longer.toList = path.toList ++ '/' :: rest) :
    fs.place longer = fs.place path >>= fun p ↦ fs.walk p (splitOn '/' rest) := by
  have hlonger : longer ≠ "" := by
    rintro rfl
    exact absurd h.symm (by simp)
  rw [place, place, if_neg (by simpa using hlonger), if_neg (by simpa using hpath),
    start_of_slash hpath h]
  exact walk_append fs _ _ _

/-- A slash at the end of a path leads to a directory again, or nowhere. -/
theorem place_of_slash_end (hpath : path ≠ "") {longer : String}
    (h : longer.toList = path.toList ++ ['/']) {p : Place} (hplace : fs.place path = .ok p)
    (hp : fs.get? p = some .directory) : fs.place longer = .ok p := by
  rw [place_of_slash hpath h, hplace]
  exact walk_of_forall_isEmpty hp (by simp [splitOn])

/-- The path of a file name below a directory leads to the name in the place of the directory. -/
theorem exists_place_of_join {directory name : String} (hdirectory : directory ≠ "")
    (hname : Path.IsFileName name) {q : Place}
    (h : fs.place (Path.join directory name) = .ok q) :
    ∃ p, fs.place directory = .ok p ∧ fs.get? p = some .directory ∧ q = p ++ [name] := by
  have hlast : ∀ p, fs.walk p (splitOn '/' name.toList) = .ok q →
      fs.get? p = some .directory ∧ q = p ++ [name] := by
    intro p hwalk
    rw [splitOn_of_not_mem hname.slash, walk] at hwalk
    obtain ⟨next, hstep, hdone⟩ := exists_of_bind_eq_ok hwalk
    have hp := get?_of_step hstep
    rw [step_of_names hp hname.names, String.ofList_toList] at hstep
    exact ⟨hp, ((Except.ok.inj hstep).trans (Except.ok.inj hdone)).symm⟩
  rcases Path.join_cases hdirectory with ⟨hroot, hjoin⟩ | ⟨front, hfront, hends, hjoin⟩
  · have hplace : fs.place directory = .ok [] := by
      rw [place, if_neg (by simpa using hdirectory), start_root hroot]
      exact walk_of_forall_isEmpty rfl (by simp [splitOn])
    have hnonempty : Path.join directory name ≠ "" := by
      rw [ne_eq, ← String.toList_eq_nil_iff, hjoin name hname.slash]
      exact List.cons_ne_nil _ _
    rw [place, if_neg (by simpa using hnonempty), start_root (hjoin name hname.slash)] at h
    exact ⟨[], hplace, hlast [] h⟩
  · rw [place_of_slash hfront (hjoin name hname.slash)] at h
    obtain ⟨p, hplace, hwalk⟩ := exists_of_bind_eq_ok h
    obtain ⟨hp, hq⟩ := hlast p hwalk
    rcases hends with rfl | hends
    · exact ⟨p, hplace, hp, hq⟩
    · exact ⟨p, place_of_slash_end hfront hends hplace hp, hp, hq⟩

end FileSystem

/-! ### Writing several files -/

section Writing

variable {fs : FileSystem} {directory : String} {os : List OutputDocument}

/-- While outputs are written, no directory is taken away. -/
theorem keepsDirectories_writeOutputs (h : (writeOutputs fs directory os).failure = none) :
    fs.KeepsDirectories (writeOutputs fs directory os).files := by
  induction os generalizing fs with
  | nil => exact .refl fs
  | cons o os ih =>
    obtain ⟨next, hwrite, hrest, hfiles⟩ := exists_write_of_writeOutputs h
    obtain ⟨q, -, hq, rfl⟩ := FileSystem.exists_newPlace?_of_write hwrite
    rw [hfiles]
    exact (FileSystem.keepsDirectories_set_file hq).trans (ih hrest)

end Writing

/-! ### What may change -/

/-- What may be different at a place after a run to a directory: there is a directory where there
was nothing, and it is the one of the run or on the way to it; or there is a file in the directory
of the run, with a name of the kind that programs have. -/
inductive Allowed (fs after : FileSystem) (directory : String) (q : Place) : Prop
  | made (part : String) (hpart : Path.IsLeading part directory) (hplace : after.place part = .ok q)
    (hnone : fs.get? q = none) (hthere : after.get? q = some .directory)
  | written (p : Place) (base : String) (bytes : Bytes) (hplace : after.place directory = .ok p)
    (hp : after.get? p = some .directory) (hq : q = p ++ [base ++ ".c"])
    (hthere : after.get? q = some (.file bytes))

/-- What making a directory changes is allowed. -/
theorem allowed_of_madeAlong {fs made : FileSystem} {directory : String}
    (h : fs.MadeAlong directory made) {q : Place} (hq : made.get? q ≠ fs.get? q) :
    Allowed fs made directory q := by
  obtain ⟨hnone, hthere⟩ := (h.grows q).resolve_left hq
  obtain ⟨part, hpart, hplace⟩ := h.named q hnone hthere
  exact .made part hpart hplace hnone hthere

namespace InputDocument

theorem exists_outputName_eq (d : InputDocument) : ∃ base, d.outputName = base ++ ".c" :=
  ⟨_, String.append_assoc⟩

/-- What is changed by making a directory and writing the programs of documents to it is allowed. -/
theorem allowed_of_writeOutputs [Query.Interpreter] {fs made : FileSystem} {directory : String}
    (hdirectory : directory ≠ "") (hmade : fs.MadeAlong directory made) {options : Options}
    {ds : List InputDocument} (hnames : ∀ d ∈ ds, Path.IsFileName d.outputName)
    (h : (writeOutputs made directory (ds.map (output options))).failure = none) {q : Place}
    (hq : (writeOutputs made directory (ds.map (output options))).files.get? q ≠ fs.get? q) :
    Allowed fs (writeOutputs made directory (ds.map (output options))).files directory q := by
  have hkeeps := keepsDirectories_writeOutputs h
  by_cases hwritten : ∃ d ∈ ds, made.place (Path.join directory d.outputName) = .ok q
  · obtain ⟨d, hd, hplace⟩ := hwritten
    obtain ⟨p, hp, hthere, hbelow⟩ :=
      FileSystem.exists_place_of_join hdirectory (hnames d hd) hplace
    obtain ⟨base, hbase⟩ := d.exists_outputName_eq
    -- the last program of this name can be read at the path, so it is at the place
    obtain ⟨_, last, _, -, -, -, hholds⟩ := exists_last_holds hnames h hd
    obtain ⟨r, hr, hfile⟩ := FileSystem.exists_place_of_read hholds
    obtain rfl : q = r := Except.ok.inj ((hkeeps.place hplace).symm.trans hr)
    exact .written p base _ (hkeeps.place hp) (hkeeps.there hthere) (hbase ▸ hbelow) hfile
  · have hsame := get?_writeOutputs (List.forall_mem_map.2 hnames) h (q := q)
      (List.forall_mem_map.2 fun d hd hplace ↦ hwritten ⟨d, hd, hplace⟩)
    rw [hsame] at hq
    obtain ⟨hnone, hthere⟩ := (hmade.grows q).resolve_left hq
    obtain ⟨part, hpart, hplace⟩ := hmade.named q hnone hthere
    exact .made part hpart (hkeeps.place hplace) hnone (hkeeps.there hthere)

end InputDocument

/-! ### Runs -/

namespace Command

section

variable [Query.Interpreter] {fs : FileSystem}

/-- A command that only shows itself, or that prints its programs, changes nothing. -/
theorem files_run_of_not_delivered {s : Settings} {format : String} {directory : Option String}
    (h : directory = none ∨ s.noOp = true) :
    (run fs ⟨s, .programs format directory⟩).files = fs := by
  rw [run]
  split
  · rfl
  next hno =>
    obtain rfl : directory = none := h.resolve_right hno
    simp only [runPrograms]
    cases converted fs s format with
    | error f => rfl
    | ok c => rfl

/-- What a run to a directory changes is allowed. -/
theorem allowed_of_runPrograms (hfs : fs.IsTree) {s : Settings} {format directory : String}
    (hdirectory : directory ≠ "") {q : Place}
    (hq : (runPrograms fs s format (some directory)).files.get? q ≠ fs.get? q) :
    Allowed fs (runPrograms fs s format (some directory)).files directory q := by
  have hmadeAlong := fs.madeAlong_createAll directory
  rw [runPrograms] at hq ⊢
  cases hconverted : converted fs s format with
  | error f =>
    rw [hconverted] at hq
    exact absurd rfl hq
  | ok c =>
    rw [hconverted] at hq
    obtain ⟨options, ds, -, hds, rfl⟩ := eq_ofDocuments_of_converted hconverted
    rcases hmade : fs.createAll directory with ⟨made, - | e⟩
    · rw [hmade] at hmadeAlong
      simp only [deliver, hmade] at hq ⊢
      rw [Conversion.outputs_ofDocuments] at hq ⊢
      obtain ⟨os, hprefix, -, hnone, -, hfiles⟩ :=
        exists_written_of_writeOutputs made directory (ds.map (InputDocument.output options))
      obtain ⟨earlier, hearlier, rfl⟩ := List.prefix_map_iff.1 hprefix
      rw [hfiles] at hq ⊢
      -- the documents were read from files, so their outputs have file names
      refine InputDocument.allowed_of_writeOutputs hdirectory hmadeAlong (fun d hd ↦ ?_) hnone hq
      exact InputDocument.isFileName_outputName hfs
        (Inputs.read_of_mem_documents hds (hearlier.subset hd))
    · rw [hmade] at hmadeAlong
      simp only [deliver, hmade] at hq ⊢
      exact allowed_of_madeAlong hmadeAlong hq

/-- **A run writes only where it is told to.** Whatever words tell it to write programs, and whether
or not it fails, all that is different afterwards is the directory that the words name, what was
missing on the way to it, and files in it whose names end in `.c`; without a directory, and if the
command is only to be shown, nothing is. -/
theorem allowed_of_run (hfs : fs.IsTree) {words : List String} {s : Settings} {format : String}
    {directory : Option String}
    (hwords : Arguments.parse words = .ok ⟨s, .programs format directory⟩) :
    (directory = none ∨ s.noOp = true →
      (run fs ⟨s, .programs format directory⟩).files = fs) ∧
    ∀ q, (run fs ⟨s, .programs format directory⟩).files.get? q ≠ fs.get? q →
      ∃ path, directory = some path ∧
        Allowed fs (run fs ⟨s, .programs format directory⟩).files path q := by
  refine ⟨files_run_of_not_delivered, fun q hq ↦ ?_⟩
  by_cases hkept : directory = none ∨ s.noOp = true
  · rw [files_run_of_not_delivered hkept] at hq
    exact absurd rfl hq
  obtain ⟨hsome, hno⟩ := not_or.1 hkept
  obtain ⟨path, rfl⟩ := Option.ne_none_iff_exists'.1 hsome
  rw [run_programs fs (by simpa using hno)] at hq ⊢
  exact ⟨path, rfl, allowed_of_runPrograms hfs (Arguments.directory_ne_empty_of_parse hwords) hq⟩

end

/-- A directory that is missing with the one above it is made with it, below the working
directory. -/
theorem allowed_of_run_nested :
    let fs : FileSystem := ⟨["home"], [(["home"], .directory),
      (["home", "a.json"], .file [0x7b, 0x7d])]⟩
    let s : Settings := { inputs := ["a.json"] }
    let words := ["c", "--input", "a.json", "-o", "x/./y/"]
    let r := run fs ⟨s, .programs "c" (some "x/./y/")⟩
    fs.IsTree ∧ Arguments.parse words = .ok ⟨s, .programs "c" (some "x/./y/")⟩ ∧
      fs.get? ["home", "x"] = none ∧ r.files.get? ["home", "x"] = some .directory ∧
      Allowed fs r.files "x/./y/" ["home", "x"] ∧
      Allowed fs r.files "x/./y/" ["home", "x", "y", "a.c"] := by
  intro fs s words r
  have hfs : fs.IsTree := FileSystem.isTree_of_entries (by decide)
  have hwords : Arguments.parse words = .ok ⟨s, .programs "c" (some "x/./y/")⟩ := by
    decide +kernel
  have hallowed : ∀ q, r.files.get? q ≠ fs.get? q → Allowed fs r.files "x/./y/" q := by
    intro q hq
    obtain ⟨path, hpath, hq⟩ := (allowed_of_run hfs hwords).2 q hq
    obtain rfl : "x/./y/" = path := Option.some.inj hpath
    exact hq
  exact ⟨hfs, hwords, by decide +kernel, by decide +kernel, hallowed _ (by decide +kernel),
    hallowed _ (by decide +kernel)⟩

end Command

end JsonEmbed
