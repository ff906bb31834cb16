import JsonEmbed.CommandLine.Run
import JsonEmbed.Proofs.OutputNames

/-!
# Delivery of programs

Programs are written to a directory one after another. A file that is written there is not touched
by a later one of another name, so after a run that did not fail every file holds the last program
that has its name (`read_writeOutputs`).

The name of a program comes from the file name of its document alone. Documents from different
directories can have one name, and then only the program of the last one is left, though the run
says of each that it was written. `Command.holds_iff_of_run` says exactly when nothing is lost:
documents with one name for their outputs must have one program.
-/

namespace JsonEmbed

/-- Different texts have different bytes. -/
theorem Utf8.encode_injective : Function.Injective Utf8.encode := by
  intro s t h
  have hbytes : ∀ u : String, u.toByteArray = (Utf8.encode u).toByteArray := by
    intro u
    rw [encode, ← List.utf8Encode, String.utf8Encode_toList]
  rw [← String.toByteArray_inj, hbytes, hbytes, h]

/-! ### Writing one output after another -/

section Writing

variable {fs : FileSystem} {directory : String}

/-- If writing several outputs does not fail, the first one is written, and then the others. -/
theorem exists_write_of_writeOutputs {o : OutputDocument} {os : List OutputDocument}
    (h : (writeOutputs fs directory (o :: os)).failure = none) :
    ∃ next, fs.write (Path.join directory o.name) (Utf8.encode o.text) = .ok next ∧
      (writeOutputs next directory os).failure = none ∧
      (writeOutputs fs directory (o :: os)).files = (writeOutputs next directory os).files := by
  rw [writeOutputs] at h ⊢
  cases hwrite : fs.write (Path.join directory o.name) (Utf8.encode o.text) with
  | error e =>
    rw [hwrite] at h
    exact absurd h (by simp)
  | ok next =>
    rw [hwrite] at h
    exact ⟨next, rfl, h, rfl⟩

/-- Outputs are written below the directory, each to the place of its name and nowhere else. -/
theorem leads_writeOutputs {p : Place} (hleads : fs.Leads directory p) {os : List OutputDocument}
    (hnames : ∀ o ∈ os, Path.IsFileName o.name)
    (h : (writeOutputs fs directory os).failure = none) :
    (writeOutputs fs directory os).files.Leads directory p ∧
      ∀ q, (∀ o ∈ os, q ≠ p ++ [o.name]) →
        (writeOutputs fs directory os).files.get? q = fs.get? q := by
  -- the directory leads to the same place after every write, which carries the induction
  induction os generalizing fs with
  | nil => exact ⟨hleads, fun _ _ ↦ rfl⟩
  | cons o os ih =>
    obtain ⟨ho, hos⟩ := List.forall_mem_cons.1 hnames
    obtain ⟨next, hwrite, hrest, hfiles⟩ := exists_write_of_writeOutputs h
    obtain ⟨hfree, rfl⟩ := hleads.eq_set_of_write ho hwrite
    obtain ⟨hafter, hothers⟩ := ih (hleads.set_file hfree) hos hrest
    rw [hfiles]
    refine ⟨hafter, fun q hq ↦ ?_⟩
    obtain ⟨hne, hlater⟩ := List.forall_mem_cons.1 hq
    rw [hothers q hlater, FileSystem.get?_set_of_not_directory hfree, if_neg hne]

/-- **A file holds the last output of its name.** -/
theorem read_writeOutputs {earlier later : List OutputDocument} {o : OutputDocument}
    (hnames : ∀ e ∈ earlier ++ o :: later, Path.IsFileName e.name)
    (h : (writeOutputs fs directory (earlier ++ o :: later)).failure = none)
    (hlast : o.name ∉ later.map OutputDocument.name) :
    (writeOutputs fs directory (earlier ++ o :: later)).files.read (Path.join directory o.name) =
      .ok (Utf8.encode o.text) := by
  induction earlier generalizing fs with
  | nil =>
    obtain ⟨ho, hlater⟩ := List.forall_mem_cons.1 hnames
    obtain ⟨next, hwrite, hrest, hfiles⟩ := exists_write_of_writeOutputs h
    obtain ⟨p, hleads⟩ := FileSystem.exists_leads_of_write ho hwrite
    obtain ⟨hfree, rfl⟩ := hleads.eq_set_of_write ho hwrite
    obtain ⟨hafter, hothers⟩ := leads_writeOutputs (hleads.set_file hfree) hlater hrest
    rw [List.nil_append, hfiles]
    have hplace : ∀ e ∈ later, p ++ [o.name] ≠ p ++ [e.name] := by
      intro e he hsame
      obtain ⟨hname, -⟩ := List.cons.inj (List.append_cancel_left hsame)
      exact hlast (List.mem_map.2 ⟨e, he, hname.symm⟩)
    refine hafter.read ho ?_
    rw [hothers _ hplace, FileSystem.get?_set_of_not_directory hfree, if_pos rfl]
  | cons e earlier ih =>
    rw [List.cons_append] at h ⊢
    obtain ⟨next, -, hrest, hfiles⟩ := exists_write_of_writeOutputs h
    rw [hfiles]
    exact ih (List.forall_mem_cons.1 hnames).2 hrest

end Writing

/-! ### Documents and their outputs -/

namespace InputDocument

/-- The text of the program that a document becomes. -/
def programText [Query.Interpreter] (options : Options) (d : InputDocument) : String :=
  match Document.load options d.bytes with
  | .ok v => v.program options
  | .error _ => unlines Program.shell

/-- The name of the file for the program of a document. -/
def outputName (d : InputDocument) : String :=
  Conversion.outputName d.name "c"

/-- The program of a document with the name of its file. -/
def output [Query.Interpreter] (options : Options) (d : InputDocument) : OutputDocument :=
  ⟨d.outputName, d.programText options⟩

end InputDocument

/-- Of the documents with one name for their outputs one is the last. -/
theorem InputDocument.exists_last {ds : List InputDocument} {d : InputDocument} (hd : d ∈ ds) :
    ∃ earlier last later, ds = earlier ++ last :: later ∧ last.outputName = d.outputName ∧
      d.outputName ∉ later.map outputName := by
  obtain ⟨last, hfind⟩ : ∃ last,
      ds.reverse.find? (fun e ↦ e.outputName == d.outputName) = some last :=
    Option.isSome_iff_exists.1 (List.find?_isSome.2 ⟨d, List.mem_reverse.2 hd, by simp⟩)
  obtain ⟨hname, later, earlier, hreverse, hlater⟩ := List.find?_eq_some_iff_append.1 hfind
  refine ⟨earlier.reverse, last, later.reverse, ?_, by simpa using hname, fun hmem ↦ ?_⟩
  · rw [← List.reverse_reverse ds, hreverse]
    simp
  · obtain ⟨e, he, hename⟩ := List.mem_map.1 hmem
    have hne := hlater e (List.mem_reverse.1 he)
    simp [hename] at hne

/-- The outputs of a batch are the programs of its documents in order. -/
theorem Conversion.outputs_ofDocuments [Query.Interpreter] (options : Options)
    (ds : List InputDocument) :
    (ofDocuments options ds).outputs = ds.map (InputDocument.output options) := by
  induction ds with
  | nil => rfl
  | cons d ds ih =>
    have houtput : (ofDocument options d).outputs = [d.output options] := by
      rw [ofDocument, InputDocument.output, InputDocument.programText]
      cases Document.load options d.bytes <;> rfl
    show (ofDocument options d).outputs ++ (ofDocuments options ds).outputs = _
    rw [houtput, ih]
    rfl

/-- The documents of a command are read from the files that they are named after. -/
theorem Inputs.read_of_mem_documents {fs : FileSystem} {inputs : List String}
    {ds : List InputDocument} (h : documents fs inputs = .ok ds) {d : InputDocument}
    (hd : d ∈ ds) : fs.read d.name = .ok d.bytes := by
  obtain ⟨paths, -, hread⟩ := exists_of_bind_eq_ok h
  clear h
  induction paths generalizing ds with
  | nil =>
    obtain rfl : [] = ds := Except.ok.inj hread
    exact absurd hd List.not_mem_nil
  | cons path paths ih =>
    rw [readAll] at hread
    obtain ⟨bytes, hbytes, hrest⟩ := exists_of_bind_eq_ok hread
    obtain ⟨later, hlater, hds⟩ := exists_of_bind_eq_ok hrest
    obtain rfl : ⟨path, bytes⟩ :: later = ds := Except.ok.inj hds
    rcases List.mem_cons.1 hd with rfl | hd
    · cases hfile : fs.read path with
      | error e =>
        rw [hfile] at hbytes
        exact absurd hbytes (by simp [Except.mapError])
      | ok content =>
        rw [hfile] at hbytes
        exact congrArg Except.ok (Except.ok.inj hbytes)
    · exact ih hd hlater

/-- Documents that are read have outputs with file names. -/
theorem InputDocument.isFileName_outputName {fs : FileSystem} (hfs : fs.IsTree)
    {d : InputDocument} (h : fs.read d.name = .ok d.bytes) : Path.IsFileName d.outputName := by
  obtain ⟨here, before, piece, hstart⟩ := fs.exists_start d.name
  have hpiece := FileSystem.names_of_read hfs h hstart
  exact Conversion.isFileName_outputName (Path.fileName?_of_start hstart hpiece)

/-- The file for the program of a document holds a text. -/
def FileSystem.Holds (fs : FileSystem) (directory : String) (d : InputDocument) (text : String) :
    Prop :=
  fs.read (Path.join directory d.outputName) = .ok (Utf8.encode text)

instance (fs : FileSystem) (directory : String) (d : InputDocument) (text : String) :
    Decidable (fs.Holds directory d text) :=
  inferInstanceAs (Decidable (_ = _))

/-- After the programs of documents have been written, the file of each document holds that of the
last document with this name for its output. -/
theorem InputDocument.exists_last_holds [Query.Interpreter] {fs : FileSystem} {directory : String}
    {options : Options} {ds : List InputDocument} (hnames : ∀ d ∈ ds, Path.IsFileName d.outputName)
    (h : (writeOutputs fs directory (ds.map (output options))).failure = none)
    {d : InputDocument} (hd : d ∈ ds) :
    ∃ earlier last later, ds = earlier ++ last :: later ∧ last.outputName = d.outputName ∧
      d.outputName ∉ later.map outputName ∧
      (writeOutputs fs directory (ds.map (output options))).files.Holds directory d
        (last.programText options) := by
  obtain ⟨earlier, last, later, rfl, hname, hlater⟩ := exists_last hd
  refine ⟨earlier, last, later, rfl, hname, hlater, ?_⟩
  have houtputs : ∀ o ∈ (earlier ++ last :: later).map (output options),
      Path.IsFileName o.name :=
    List.forall_mem_map.2 hnames
  have hothers : (last.output options).name ∉
      (later.map (output options)).map OutputDocument.name := by
    rw [← hname] at hlater
    rw [List.map_map]
    exact hlater
  rw [List.map_append, List.map_cons] at h houtputs ⊢
  rw [FileSystem.Holds, ← hname]
  exact read_writeOutputs houtputs h hothers

/-! ### Runs -/

/-- What is converted are the documents of the command, with its options. -/
theorem eq_ofDocuments_of_converted [Query.Interpreter] {fs : FileSystem} {s : Settings}
    {format : String} {c : Conversion} (h : converted fs s format = .ok c) :
    ∃ options ds, s.options fs = .ok options ∧ Inputs.documents fs s.inputs = .ok ds ∧
      c = Conversion.ofDocuments options ds := by
  rw [converted] at h
  split at h
  · exact absurd h (by simp)
  next f _ =>
  obtain ⟨options, hoptions, hrest⟩ := exists_of_bind_eq_ok h
  obtain ⟨ds, hds, hrun⟩ := exists_of_bind_eq_ok hrest
  refine ⟨options, ds, hoptions, hds, ?_⟩
  rw [Conversion.run] at hrun
  split at hrun
  · exact (Except.ok.inj hrun).symm
  · exact absurd hrun (by simp [Except.mapError])

/-- What is delivered to a directory is written there once the directory is made. -/
theorem exists_writing_of_deliver {fs : FileSystem} {directory : String} {c : Conversion}
    (h : (deliver fs (some directory) c).failure = none) :
    ∃ made, (writeOutputs made directory c.outputs).failure = none ∧
      (deliver fs (some directory) c).files = (writeOutputs made directory c.outputs).files := by
  rcases hmade : fs.createAll directory with ⟨made, - | e⟩
  · simp only [deliver, hmade] at h ⊢
    exact ⟨made, h, rfl⟩
  · simp only [deliver, hmade] at h
    exact absurd h (by simp)

namespace Command

section

variable [Query.Interpreter]

theorem run_programs (fs : FileSystem) {s : Settings} (hno : s.noOp = false) (format : String)
    (directory : Option String) :
    run fs ⟨s, .programs format directory⟩ = runPrograms fs s format directory :=
  if_neg (by simp [hno])

theorem run_declarations (fs : FileSystem) {s : Settings} (hno : s.noOp = false)
    (file : Option String) :
    run fs ⟨s, .declarations file⟩ = runDeclarations fs s file :=
  if_neg (by simp [hno])

/-- What a run to a directory writes, if it does not fail. -/
theorem exists_writing_of_run {fs : FileSystem} {s : Settings} {format directory : String}
    (hno : s.noOp = false)
    (h : (run fs ⟨s, .programs format (some directory)⟩).failure = none) :
    ∃ options ds made, s.options fs = .ok options ∧ Inputs.documents fs s.inputs = .ok ds ∧
      (writeOutputs made directory (Conversion.ofDocuments options ds).outputs).failure = none ∧
      (run fs ⟨s, .programs format (some directory)⟩).files =
        (writeOutputs made directory (Conversion.ofDocuments options ds).outputs).files := by
  rw [run_programs fs hno, runPrograms] at h ⊢
  cases hconverted : converted fs s format with
  | error f =>
    rw [hconverted] at h
    exact absurd h (by simp [Report.failed])
  | ok c =>
    rw [hconverted] at h
    obtain ⟨options, ds, hoptions, hds, rfl⟩ := eq_ofDocuments_of_converted hconverted
    obtain ⟨made, hfailure, hfiles⟩ := exists_writing_of_deliver h
    exact ⟨options, ds, made, hoptions, hds, hfailure, hfiles⟩

/-- **A run keeps the last program of every name, and loses the others.** If a run to a directory
does not fail, then after it the file of every document holds the program of the last document whose
output has this name. So every file holds the program of its own document if and only if documents
with one name for their outputs have one program. -/
theorem holds_iff_of_run {fs : FileSystem} (hfs : fs.IsTree) {s : Settings}
    {format directory : String} (hno : s.noOp = false)
    (h : (run fs ⟨s, .programs format (some directory)⟩).failure = none) :
    ∃ options ds, s.options fs = .ok options ∧ Inputs.documents fs s.inputs = .ok ds ∧
      let after := (run fs ⟨s, .programs format (some directory)⟩).files
      (∀ d ∈ ds, ∃ earlier last later, ds = earlier ++ last :: later ∧
        last.outputName = d.outputName ∧
        d.outputName ∉ later.map InputDocument.outputName ∧
        after.Holds directory d (last.programText options)) ∧
      ((∀ d ∈ ds, after.Holds directory d (d.programText options)) ↔
        ∀ d ∈ ds, ∀ e ∈ ds, d.outputName = e.outputName →
          d.programText options = e.programText options) := by
  obtain ⟨options, ds, made, hoptions, hds, hfailure, hfiles⟩ := exists_writing_of_run hno h
  refine ⟨options, ds, hoptions, hds, ?_⟩
  intro after
  rw [Conversion.outputs_ofDocuments] at hfailure hfiles
  have hnames : ∀ d ∈ ds, Path.IsFileName d.outputName := fun d hd ↦
    InputDocument.isFileName_outputName hfs (Inputs.read_of_mem_documents hds hd)
  have hlast : ∀ d ∈ ds, ∃ earlier last later, ds = earlier ++ last :: later ∧
      last.outputName = d.outputName ∧ d.outputName ∉ later.map InputDocument.outputName ∧
      after.Holds directory d (last.programText options) := by
    rw [show after = _ from hfiles]
    exact fun d ↦ InputDocument.exists_last_holds hnames hfailure
  refine ⟨hlast, fun hall d hd e he hname ↦ ?_, fun hall d hd ↦ ?_⟩
  · -- what is read at one path can be only one text
    have hread : after.Holds directory d (e.programText options) := by
      rw [FileSystem.Holds, hname]
      exact hall e he
    exact Utf8.encode_injective (Except.ok.inj (Eq.trans (Eq.symm (hall d hd)) hread))
  · obtain ⟨earlier, last, later, rfl, hname, -, hholds⟩ := hlast d hd
    rw [hall d hd last (List.mem_append_right _ List.mem_cons_self) hname.symm]
    exact hholds

end

/-- Documents of different file names are all kept, even one that stands for no value. -/
theorem holds_iff_of_run_siblings :
    let first : InputDocument := ⟨"a/x.json", [0x7b, 0x7d]⟩
    let second : InputDocument := ⟨"a/y.json", [0x5b]⟩
    let fs : FileSystem := ⟨[], [(["a"], .directory), (["a", "x.json"], .file first.bytes),
      (["a", "y.json"], .file second.bytes)]⟩
    let s : Settings := { inputs := [first.name, second.name] }
    let r := run fs ⟨s, .programs "c" (some "out")⟩
    fs.IsTree ∧ s.noOp = false ∧ r.failure = none ∧
      ∀ d ∈ [first, second], r.files.Holds "out" d (d.programText {}) := by
  intro first second fs s r
  have hfs : fs.IsTree := FileSystem.isTree_of_entries (by decide)
  have hrun : r.failure = none := by decide +kernel
  have hfound : Inputs.documents fs s.inputs = .ok [first, second] := by decide +kernel
  obtain ⟨options, ds, hoptions, hds, -, hiff⟩ := holds_iff_of_run hfs rfl hrun
  obtain rfl : {} = options := Except.ok.inj hoptions
  rw [hfound] at hds
  obtain rfl : [first, second] = ds := Except.ok.inj hds
  have hnames : ∀ d ∈ [first, second], ∀ e ∈ [first, second],
      d.outputName = e.outputName → d = e := by decide +kernel
  exact ⟨hfs, rfl, hrun, hiff.2 fun d hd e he hname ↦ by rw [hnames d hd e he hname]⟩

/-- Documents of one file name are not, though nothing fails. -/
theorem exists_lost :
    let first : InputDocument := ⟨"a/x.json", [0x7b, 0x22, 0x61, 0x22, 0x3a, 0x31, 0x7d]⟩
    let second : InputDocument := ⟨"b/x.json", [0x7b, 0x22, 0x61, 0x22, 0x3a, 0x32, 0x7d]⟩
    let fs : FileSystem := ⟨[], [(["a"], .directory), (["b"], .directory),
      (["a", "x.json"], .file first.bytes), (["b", "x.json"], .file second.bytes)]⟩
    let s : Settings := { inputs := [first.name, second.name] }
    let r := run fs ⟨s, .programs "c" (some "out")⟩
    r.failure = none ∧ s.options fs = .ok {} ∧
      Inputs.documents fs s.inputs = .ok [first, second] ∧
      ¬r.files.Holds "out" first (first.programText {}) := by
  decide +kernel

end Command

end JsonEmbed
