import JsonEmbed.Proofs.Reports
import JsonEmbed.Proofs.Shapes

/-!
# Contents do not decide what a run does

A command is run on two file systems of one shape, which differ in the contents of files, though not
of the configuration. Whatever the contents are, malformed or not, both runs look up the same
inputs, fail alike or not at all, and write the same paths. What is different is in what each run
reports on its documents, and there every document has its own place.
-/

namespace JsonEmbed

variable {fs fs' : FileSystem}

/-! ### Writing in two file systems -/

/-- Outputs of the same names are written to the same paths, or the same is wrong with one. -/
theorem sameShape_writeOutputs (h : fs.SameShape fs') (directory : String)
    {os os' : List OutputDocument}
    (hnames : os.map OutputDocument.name = os'.map OutputDocument.name) :
    (writeOutputs fs directory os).failure = (writeOutputs fs' directory os').failure ∧
      (writeOutputs fs directory os).written = (writeOutputs fs' directory os').written ∧
      (writeOutputs fs directory os).files.SameShape (writeOutputs fs' directory os').files := by
  induction os generalizing fs fs' os' with
  | nil =>
    obtain rfl : os' = [] := List.map_eq_nil_iff.1 hnames.symm
    exact ⟨rfl, rfl, h⟩
  | cons o os ih =>
    obtain ⟨o', os', rfl, hname, hrest⟩ := List.map_eq_cons_iff.1 hnames.symm
    rw [writeOutputs, writeOutputs, hname]
    rcases (h.write (Path.join directory o.name) (Utf8.encode o.text)
      (Utf8.encode o'.text)).exists_eq with ⟨e, hx, hy⟩ | ⟨after, after', hx, hy, hafter⟩
    · rw [hx, hy]
      exact ⟨rfl, rfl, h⟩
    · rw [hx, hy]
      obtain ⟨hfailure, hwritten, hshape⟩ := ih hafter hrest.symm
      exact ⟨hfailure, congrArg (_ :: ·) hwritten, hshape⟩

theorem sameShape_createParent (h : fs.SameShape fs') (path : String) :
    (createParent fs path).1.SameShape (createParent fs' path).1 ∧
      (createParent fs path).2 = (createParent fs' path).2 := by
  rw [createParent, createParent]
  split
  · exact ⟨h, rfl⟩
  · next parent _ =>
    obtain ⟨hshape, hfailure⟩ := h.createAll parent
    exact ⟨hshape, congrArg (Option.map _) hfailure⟩

/-- A text is written to a path, whatever it is, or the same is wrong with the path. -/
theorem sameShape_writeText (h : fs.SameShape fs') (path text text' : String) :
    (writeText fs path text).1.SameShape (writeText fs' path text').1 ∧
      (writeText fs path text).2 = (writeText fs' path text').2 := by
  obtain ⟨hparent, hfailure⟩ := sameShape_createParent h path
  rw [writeText, writeText]
  rcases hmade : createParent fs path with ⟨made, f⟩
  rcases hmade' : createParent fs' path with ⟨made', f'⟩
  rw [hmade, hmade'] at hparent hfailure
  obtain rfl : f = f' := hfailure
  cases f with
  | some f => exact ⟨hparent, rfl⟩
  | none =>
    rcases (hparent.write path (Utf8.encode text) (Utf8.encode text')).exists_eq with
      ⟨e, hx, hy⟩ | ⟨done, done', hx, hy, hdone⟩
    · simp only [hx, hy]
      exact ⟨hparent, trivial⟩
    · simp only [hx, hy]
      exact ⟨hdone, trivial⟩

/-! ### Reports on documents of the same names -/

/-- Reports of two runs on documents of the same names: the same is wrong, or nothing; the same
paths have been written; and what is left is of one shape. -/
structure Parallel [Query.Interpreter] (fs fs' : FileSystem) (task : Task) (options : Options)
    (ds ds' : List InputDocument) (r r' : Report) : Prop where
  failure : r.failure = r'.failure
  shape : r.files.SameShape r'.files
  reports : ∃ written written' : List (String × String),
    written.map Prod.fst = written'.map Prod.fst ∧
      Reports fs task options ds written r ∧ Reports fs' task options ds' written' r'

section Parallel

variable [Query.Interpreter] {options : Options} {ds ds' : List InputDocument}

theorem parallel_deliver (h : fs.SameShape fs')
    (hnames : ds.map InputDocument.name = ds'.map InputDocument.name) (format : String)
    (directory : Option String) :
    Parallel fs fs' (.programs format directory) options ds ds'
      (deliver fs directory (Conversion.ofDocuments options ds))
      (deliver fs' directory (Conversion.ofDocuments options ds')) := by
  cases directory with
  | none =>
    exact ⟨rfl, h, [], [], rfl, reports_deliver_none fs options ds format,
      reports_deliver_none fs' options ds' format⟩
  | some directory =>
    obtain ⟨hshape, hfailure⟩ := h.createAll directory
    rcases hmade : fs.createAll directory with ⟨made, e⟩
    rcases hmade' : fs'.createAll directory with ⟨made', e'⟩
    rw [hmade, hmade'] at hshape hfailure
    obtain rfl : e = e' := hfailure
    cases e with
    | some e =>
      refine ⟨?_, ?_, [], [], rfl, reports_deliver_of_error hmade format,
        reports_deliver_of_error hmade' format⟩
      · simp only [deliver, hmade, hmade']
      · simp only [deliver, hmade, hmade']
        exact hshape
    | none =>
      have houtputs : (ds.map (InputDocument.output options)).map OutputDocument.name =
          (ds'.map (InputDocument.output options)).map OutputDocument.name := by
        have hmap := congrArg (List.map fun name ↦ Conversion.outputName name "c") hnames
        rw [List.map_map, List.map_map] at hmap ⊢
        exact hmap
      obtain ⟨hwriting, hpaths, hfiles⟩ := sameShape_writeOutputs hshape directory houtputs
      obtain ⟨written, hwritten, hreports⟩ := exists_reports_deliver hmade options ds format
      obtain ⟨written', hwritten', hreports'⟩ := exists_reports_deliver hmade' options ds' format
      refine ⟨?_, ?_, written, written', ?_, hreports, hreports'⟩
      · simp only [deliver, hmade, hmade', Conversion.outputs_ofDocuments]
        exact hwriting
      · simp only [deliver, hmade, hmade', Conversion.outputs_ofDocuments]
        exact hfiles
      · rw [hwritten, hwritten', hpaths]

theorem parallel_runDeclarations (h : fs.SameShape fs') {s : Settings}
    (hdeclared : declared fs s = .ok (options, ds))
    (hdeclared' : declared fs' s = .ok (options, ds')) (file : Option String) :
    Parallel fs fs' (.declarations file) options ds ds' (runDeclarations fs s file)
      (runDeclarations fs' s file) := by
  obtain ⟨written, hunwritten, hreports⟩ := exists_reports_runDeclarations hdeclared file
  obtain ⟨written', hunwritten', hreports'⟩ := exists_reports_runDeclarations hdeclared' file
  have hsame : (runDeclarations fs s file).failure = (runDeclarations fs' s file).failure ∧
      (runDeclarations fs s file).files.SameShape (runDeclarations fs' s file).files := by
    cases file with
    | none =>
      simp only [runDeclarations, hdeclared, hdeclared']
      exact ⟨trivial, h⟩
    | some path =>
      obtain ⟨hshape, hfailure⟩ := sameShape_writeText h path (declarations options ds).pretty
        (declarations options ds').pretty
      simp only [runDeclarations, hdeclared, hdeclared']
      exact ⟨hfailure, hshape⟩
  refine ⟨hsame.1, hsame.2, written, written', ?_, hreports, hreports'⟩
  by_cases hfailure : (runDeclarations fs s file).failure = none
  · rw [hreports.complete hfailure, hreports'.complete (hsame.1 ▸ hfailure)]
    cases file <;> rfl
  · rw [hunwritten hfailure, hunwritten' (hsame.1 ▸ hfailure)]

end Parallel

/-! ### What is read in two file systems -/

section Reading

variable {s : Settings} {options : Options} {ds : List InputDocument}

theorem declared_eq_ok (h : declared fs s = .ok (options, ds)) :
    s.options fs = .ok options ∧ Inputs.documents fs s.inputs = .ok ds := by
  obtain ⟨found, hoptions, hrest⟩ := exists_of_bind_eq_ok h
  obtain ⟨read, hread, hpair⟩ := exists_of_bind_eq_ok hrest
  obtain ⟨rfl, rfl⟩ := Prod.mk.inj (Except.ok.inj hpair)
  exact ⟨hoptions, hread⟩

/-- What is converted is what is read for declarations as well. -/
theorem converted_eq [Query.Interpreter] (fs : FileSystem) (s : Settings) (format : String) :
    converted fs s format =
      match FileFormat.lookup? format with
      | none => .error (.conversion (.unsupportedFormat format))
      | some f => declared fs s >>= fun p ↦ (Conversion.run p.1 f p.2).mapError .conversion := by
  rw [converted, declared]
  cases FileFormat.lookup? format with
  | none => rfl
  | some f =>
    cases s.options fs with
    | error e => rfl
    | ok options => cases Inputs.documents fs s.inputs <;> rfl

/-- The options are the same if the configuration is. -/
theorem options_eq_of_read
    (hconfig : ∀ path, s.config = some path → fs.read path = fs'.read path) :
    s.options fs = s.options fs' := by
  rw [Settings.options, Settings.options]
  cases hpath : s.config with
  | none => rfl
  | some path => rw [Settings.baseOptions, Settings.baseOptions, hconfig path hpath]

variable (h : fs.SameShape fs') (hoptions : s.options fs = s.options fs')

include h hoptions

/-- The options and the names of the documents are the same. -/
theorem alike_declared :
    Alike (fun p p' ↦ p.1 = p'.1 ∧ p.2.map InputDocument.name = p'.2.map InputDocument.name)
      (declared fs s) (declared fs' s) := by
  rw [declared, declared, hoptions]
  refine (Alike.of_eq rfl).bind ?_
  rintro options _ rfl
  exact (h.documents s.inputs).bind fun ds ds' hnames ↦ .ok ⟨rfl, hnames⟩

/-- What is converted are documents of the same names. -/
theorem alike_converted [Query.Interpreter] (format : String) :
    (∃ f, converted fs s format = .error f ∧ converted fs' s format = .error f) ∨
    ∃ options ds ds', declared fs s = .ok (options, ds) ∧ declared fs' s = .ok (options, ds') ∧
      ds.map InputDocument.name = ds'.map InputDocument.name ∧
      converted fs s format = .ok (Conversion.ofDocuments options ds) ∧
      converted fs' s format = .ok (Conversion.ofDocuments options ds') := by
  rw [converted_eq, converted_eq]
  split
  · exact Or.inl ⟨_, rfl, rfl⟩
  next f _ =>
  rcases (alike_declared h hoptions).exists_eq with
    ⟨e, hx, hy⟩ | ⟨⟨options, ds⟩, ⟨options', ds'⟩, hx, hy, hsame, hnames⟩
  · exact Or.inl ⟨e, by rw [hx]; rfl, by rw [hy]; rfl⟩
  obtain rfl : options = options' := hsame
  rw [hx, hy]
  by_cases hf : f = .cSource
  · subst hf
    exact Or.inr ⟨options, ds, ds', rfl, rfl, hnames, rfl, rfl⟩
  · have hrun : ∀ es, (Conversion.run options f es).mapError Failure.conversion =
        .error (.conversion (.unsupportedFormat f.format)) := by
      intro es
      rw [Conversion.run, if_neg hf]
      rfl
    exact Or.inl ⟨_, hrun ds, hrun ds'⟩

end Reading

/-! ### Runs -/

namespace Command

section

variable [Query.Interpreter]

/-- How two runs of a command go together. -/
inductive RunsAlike (fs fs' : FileSystem) (c : Command) : Prop
  /-- The command is only shown. -/
  | shown (hno : c.settings.noOp = true)
    (h : run fs c = { messages := c.outline.text, files := fs })
    (h' : run fs' c = { messages := c.outline.text, files := fs' })
  /-- Something cannot be read, or not be converted to what is asked for. -/
  | failed (f : Failure) (h : run fs c = .failed fs f) (h' : run fs' c = .failed fs' f)
  /-- Both report on documents of the same names. -/
  | reported (options : Options) (ds ds' : List InputDocument)
    (hread : declared fs c.settings = .ok (options, ds))
    (hread' : declared fs' c.settings = .ok (options, ds'))
    (hnames : ds.map InputDocument.name = ds'.map InputDocument.name)
    (hentries : HaveEntries options ds) (hentries' : HaveEntries options ds')
    (h : Parallel fs fs' c.task options ds ds' (run fs c) (run fs' c))

variable {c : Command}

theorem runsAlike_of_parallel {options : Options} {ds ds' : List InputDocument}
    (hread : declared fs c.settings = .ok (options, ds))
    (hread' : declared fs' c.settings = .ok (options, ds'))
    (hnames : ds.map InputDocument.name = ds'.map InputDocument.name)
    (h : Parallel fs fs' c.task options ds ds' (run fs c) (run fs' c)) : RunsAlike fs fs' c :=
  .reported options ds ds' hread hread' hnames
    (Inputs.haveEntries_of_documents (declared_eq_ok hread).2 options)
    (Inputs.haveEntries_of_documents (declared_eq_ok hread').2 options) h

theorem RunsAlike.failure (h : RunsAlike fs fs' c) :
    (run fs c).failure = (run fs' c).failure := by
  cases h with
  | shown _ h h' => rw [h, h']
  | failed f h h' => rw [h, h']; rfl
  | reported _ _ _ _ _ _ _ _ h => exact h.failure

theorem RunsAlike.shape (hshape : fs.SameShape fs') (h : RunsAlike fs fs' c) :
    (run fs c).files.SameShape (run fs' c).files := by
  cases h with
  | shown _ h h' => rw [h, h']; exact hshape
  | failed f h h' => rw [h, h']; exact hshape
  | reported _ _ _ _ _ _ _ _ h => exact h.shape

theorem runsAlike_programs (hshape : fs.SameShape fs') {s : Settings}
    (hoptions : s.options fs = s.options fs') (hno : s.noOp = false) (format : String)
    (directory : Option String) : RunsAlike fs fs' ⟨s, .programs format directory⟩ := by
  rcases alike_converted hshape hoptions format with
    ⟨f, h, h'⟩ | ⟨options, ds, ds', hread, hread', hnames, h, h'⟩
  · refine .failed f ?_ ?_
    · rw [run_programs fs hno, runPrograms, h]
    · rw [run_programs fs' hno, runPrograms, h']
  · refine runsAlike_of_parallel hread hread' hnames ?_
    rw [run_programs fs hno, run_programs fs' hno, runPrograms, runPrograms, h, h']
    exact parallel_deliver hshape hnames format directory

theorem runsAlike_declarations (hshape : fs.SameShape fs') {s : Settings}
    (hoptions : s.options fs = s.options fs') (hno : s.noOp = false) (file : Option String) :
    RunsAlike fs fs' ⟨s, .declarations file⟩ := by
  rcases (alike_declared hshape hoptions).exists_eq with
    ⟨f, h, h'⟩ | ⟨⟨options, ds⟩, ⟨options', ds'⟩, h, h', hsame, hnames⟩
  · refine .failed f ?_ ?_
    · rw [run_declarations fs hno, runDeclarations, h]
    · rw [run_declarations fs' hno, runDeclarations, h']
  · obtain rfl : options = options' := hsame
    refine runsAlike_of_parallel h h' hnames ?_
    rw [run_declarations fs hno, run_declarations fs' hno]
    exact parallel_runDeclarations hshape h h' file

/-- **Contents do not decide what a run does.** On two file systems of one shape, with the same
configuration if there is one, a command has the same failure or none, looks up the same inputs in
the same order, and leaves one shape: it has written the same paths. What it reports on documents is
said of each document by itself: its own program or entry, and its name in the warning if it stands
for no value. -/
theorem run_of_sameShape (hshape : fs.SameShape fs') (c : Command)
    (hconfig : ∀ path, c.settings.config = some path → fs.read path = fs'.read path) :
    (run fs c).failure = (run fs' c).failure ∧
      Inputs.resolve fs c.settings.inputs = Inputs.resolve fs' c.settings.inputs ∧
      (run fs c).files.SameShape (run fs' c).files ∧ RunsAlike fs fs' c := by
  have hoptions := options_eq_of_read hconfig
  have halike : RunsAlike fs fs' c := by
    obtain ⟨s, task⟩ := c
    rcases hno : s.noOp with - | -
    · cases task with
      | programs format directory => exact runsAlike_programs hshape hoptions hno format directory
      | declarations file => exact runsAlike_declarations hshape hoptions hno file
    · exact .shown hno (if_pos hno) (if_pos hno)
  exact ⟨halike.failure, by rw [hshape.resolve], halike.shape hshape, halike⟩

end

/-- That one of two documents ends too early is told, and both programs are written all the same. -/
theorem run_of_sameShape_malformed :
    let fs : FileSystem :=
      ⟨[], [(["a.json"], .file [0x7b, 0x7d]), (["b.json"], .file [0x7b, 0x7d])]⟩
    let fs' : FileSystem := ⟨[], [(["a.json"], .file [0x7b]), (["b.json"], .file [0x7b, 0x7d])]⟩
    let c : Command := ⟨{ inputs := ["a.json", "b.json"] }, .programs "c" (some "out")⟩
    fs.SameShape fs' ∧
      (∀ path, c.settings.config = some path → fs.read path = fs'.read path) ∧
      (run fs' c).failure = none ∧ (run fs c).files.SameShape (run fs' c).files ∧
      (run fs c).messages = "wrote out/a.c\nwrote out/b.c\n" ∧
      (run fs' c).messages = "warning: 1 document(s) could not be converted: a.json\n" ++
        "wrote out/a.c\nwrote out/b.c\n" := by
  intro fs fs' c
  have hshape : fs.SameShape fs' := FileSystem.sameShape_of_entries rfl rfl
  have hconfig : ∀ path, c.settings.config = some path → fs.read path = fs'.read path :=
    fun path h ↦ absurd h (by simp [c])
  obtain ⟨hfailure, -, hfiles, -⟩ := run_of_sameShape hshape c hconfig
  have hnone : (run fs c).failure = none := by decide +kernel
  exact ⟨hshape, hconfig, hfailure ▸ hnone, hfiles, by decide +kernel, by decide +kernel⟩

end Command

end JsonEmbed
