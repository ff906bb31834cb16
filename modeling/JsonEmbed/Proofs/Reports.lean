import JsonEmbed.Proofs.Entries
import JsonEmbed.Proofs.Failures

/-!
# Reports on documents

What a task prints and which files it writes is said here by its documents, each for itself
(`Task.printed`, `Task.files`). A run that has read its documents `Reports` on them: it prints this,
warns of the documents that stand for no value, makes directories and writes the first of these
files, and all of them if nothing is wrong. The contents of a document are nowhere else in a report.
-/

namespace JsonEmbed

namespace Task

/-- What is printed of documents. -/
def printed [Query.Interpreter] (options : Options) (ds : List InputDocument) : Task → String
  | programs _ none => JsonEmbed.printed (ds.map (InputDocument.output options))
  | declarations none => (JsonEmbed.declarations options ds).pretty ++ "\n"
  | programs _ (some _) | declarations (some _) => ""

/-- The files that are to be written for documents: the path and the text of each. -/
def files [Query.Interpreter] (options : Options) (ds : List InputDocument) :
    Task → List (String × String)
  | programs _ (some directory) =>
    ds.map fun d ↦ (Path.join directory d.outputName, d.programText options)
  | declarations (some path) => [(path, (JsonEmbed.declarations options ds).pretty)]
  | programs _ none | declarations none => []

/-- What is said of files that have been written. -/
def told (written : List (String × String)) : Task → String
  | programs _ _ => String.join ((written.map Prod.fst).map wroteLine)
  | declarations _ => ""

/-- The event of a document that stands for no value. -/
def warned : Task → Diagnostic → Event
  | programs _ _ => .emptyProgram
  | declarations _ => .skipped

end Task

/-- Writes texts to files one after the other. -/
def FileSystem.writeAll (fs : FileSystem) (files : List (String × String)) :
    Except FileError FileSystem :=
  files.foldlM (fun fs file ↦ fs.write file.1 (Utf8.encode file.2)) fs

theorem writeAll_of_writeOutputs {fs : FileSystem} {directory : String} {os : List OutputDocument}
    (h : (writeOutputs fs directory os).failure = none) :
    fs.writeAll (os.map fun o ↦ (Path.join directory o.name, o.text)) =
      .ok (writeOutputs fs directory os).files := by
  induction os generalizing fs with
  | nil => rfl
  | cons o os ih =>
    obtain ⟨next, hwrite, hrest, hfiles⟩ := exists_write_of_writeOutputs h
    rw [List.map_cons, FileSystem.writeAll, List.foldlM_cons, hwrite, hfiles]
    exact ih hrest

theorem grows_createParent (fs : FileSystem) (path : String) :
    fs.Grows (createParent fs path).1 := by
  rw [createParent]
  split
  · exact .refl fs
  · next parent _ => exact fs.grows_createAll parent

/-- What is told of a value that is no object is no warning. -/
theorem Json.filter_declarationEvents (v : Json) :
    v.declarationEvents.filter (·.level = "WARN") = [] := by
  cases v <;> simp [declarationEvents, Event.level]

/-- What a report on documents is, if the given files have been written. -/
structure Reports [Query.Interpreter] (fs : FileSystem) (task : Task) (options : Options)
    (ds : List InputDocument) (written : List (String × String)) (r : Report) : Prop where
  output : r.output = task.printed options ds
  messages : r.messages =
    warning (ds.filterMap (InputDocument.failure? options)) ++ task.told written
  warnings : r.events.filter (·.level = "WARN") =
    (ds.filterMap (InputDocument.failure? options)).map task.warned
  first : written <+: task.files options ds
  complete : r.failure = none → written = task.files options ds
  files : ∃ made, fs.Grows made ∧ made.writeAll written = .ok r.files

section

variable [Query.Interpreter] {fs : FileSystem} {task : Task} {options : Options}
  {ds : List InputDocument} {r : Report}

/-- A report that is made before a file is written. -/
theorem reports_unwritten (houtput : r.output = task.printed options ds)
    (hmessages : r.messages = warning (ds.filterMap (InputDocument.failure? options)))
    (hwarnings : r.events.filter (·.level = "WARN") =
      (ds.filterMap (InputDocument.failure? options)).map task.warned)
    (hcomplete : r.failure = none → task.files options ds = []) (hgrows : fs.Grows r.files) :
    Reports fs task options ds [] r where
  output := houtput
  messages := by
    have htold : task.told [] = "" := by cases task <;> rfl
    rw [htold, hmessages, String.append_empty]
  warnings := hwarnings
  first := List.nil_prefix
  complete h := (hcomplete h).symm
  files := ⟨r.files, hgrows, rfl⟩

/-! ### Programs -/

/-- What is told of the documents of a conversion. -/
theorem warnings_ofDocuments (options : Options) (ds : List InputDocument) (format : String)
    (directory : Option String) :
    (Conversion.ofDocuments options ds).events.filter (·.level = "WARN") =
      (ds.filterMap (InputDocument.failure? options)).map
        (Task.programs format directory).warned := by
  have hbatch : Conversion.IsOf options ds _ := Conversion.isOf_ofDocuments ds
  rw [hbatch.warnings, hbatch.diagnostics]
  rfl

theorem reports_deliver_none (fs : FileSystem) (options : Options) (ds : List InputDocument)
    (format : String) :
    Reports fs (.programs format none) options ds []
      (deliver fs none (Conversion.ofDocuments options ds)) := by
  have hbatch : Conversion.IsOf options ds _ := Conversion.isOf_ofDocuments ds
  refine reports_unwritten ?_ ?_ (warnings_ofDocuments options ds format none) (fun _ ↦ rfl)
    (.refl fs)
  · rw [deliver, Conversion.outputs_ofDocuments]
    rfl
  · rw [deliver, hbatch.diagnostics]

/-- If the directory cannot be made, no program is written. -/
theorem reports_deliver_of_error {directory : String} {made : FileSystem} {e : FileError}
    (hmade : fs.createAll directory = (made, some e)) (format : String) :
    Reports fs (.programs format (some directory)) options ds []
      (deliver fs (some directory) (Conversion.ofDocuments options ds)) := by
  have hgrows := fs.grows_createAll directory
  rw [hmade] at hgrows
  have hbatch : Conversion.IsOf options ds _ := Conversion.isOf_ofDocuments ds
  simp only [deliver, hmade]
  refine reports_unwritten rfl ?_ (warnings_ofDocuments options ds format _)
    (fun h ↦ absurd h (by simp)) hgrows
  rw [hbatch.diagnostics]

/-- Programs are written to the directory that has been made, up to a failure. -/
theorem exists_reports_deliver {directory : String} {made : FileSystem}
    (hmade : fs.createAll directory = (made, none)) (options : Options) (ds : List InputDocument)
    (format : String) :
    ∃ written, written.map Prod.fst =
        (writeOutputs made directory (ds.map (InputDocument.output options))).written ∧
      Reports fs (.programs format (some directory)) options ds written
        (deliver fs (some directory) (Conversion.ofDocuments options ds)) := by
  have hgrows := fs.grows_createAll directory
  rw [hmade] at hgrows
  have hbatch : Conversion.IsOf options ds _ := Conversion.isOf_ofDocuments ds
  obtain ⟨os, hprefix, hall, hnone, hwritten, hfiles⟩ :=
    exists_written_of_writeOutputs made directory (ds.map (InputDocument.output options))
  obtain ⟨earlier, hearlier, rfl⟩ := List.prefix_map_iff.1 hprefix
  have hpaths : (earlier.map fun d ↦
      (Path.join directory d.outputName, d.programText options)).map Prod.fst =
      (writeOutputs made directory (ds.map (InputDocument.output options))).written := by
    simp only [hwritten, List.map_map, Function.comp_def, InputDocument.output]
  refine ⟨_, hpaths, ?_⟩
  simp only [deliver, hmade, Conversion.outputs_ofDocuments]
  exact {
    output := rfl
    messages := by rw [hbatch.diagnostics, Task.told, hpaths]
    warnings := warnings_ofDocuments options ds format _
    first := hearlier.map _
    complete := fun h ↦ by
      have hlength := congrArg List.length (hall h)
      rw [List.length_map, List.length_map] at hlength
      rw [hearlier.eq_of_length hlength]
      rfl
    files := by
      have hwrite := writeAll_of_writeOutputs hnone
      rw [List.map_map] at hwrite
      rw [hfiles]
      exact ⟨made, hgrows, hwrite⟩ }

/-! ### Declarations -/

/-- What is told of the documents of declarations. -/
theorem warnings_declarationEvents (options : Options) (ds : List InputDocument) :
    (declarationEvents options ds).filter (·.level = "WARN") =
      (ds.filterMap (InputDocument.failure? options)).map .skipped := by
  induction ds with
  | nil => rfl
  | cons d ds ih =>
    rw [declarationEvents] at ih ⊢
    rw [List.flatMap_cons, List.filter_append, ih, List.filterMap_cons, InputDocument.failure?]
    cases Document.load options d.bytes with
    | error e => simp [Event.level]
    | ok v => simp [v.filter_declarationEvents]

/-- Declarations are written or not. -/
theorem exists_reports_runDeclarations {s : Settings} (h : declared fs s = .ok (options, ds))
    (file : Option String) :
    ∃ written, ((runDeclarations fs s file).failure ≠ none → written = []) ∧
      Reports fs (.declarations file) options ds written (runDeclarations fs s file) := by
  have hwarnings := warnings_declarationEvents options ds
  cases file with
  | none =>
    refine ⟨[], fun _ ↦ rfl, ?_⟩
    simp only [runDeclarations, h]
    exact reports_unwritten rfl rfl hwarnings (fun _ ↦ rfl) (.refl fs)
  | some path =>
    have hgrows := grows_createParent fs path
    simp only [runDeclarations, h, writeText]
    rcases hparent : createParent fs path with ⟨made, - | f⟩
    · rw [hparent] at hgrows
      cases hwrite : made.write path (Utf8.encode (declarations options ds).pretty) with
      | error e =>
        simp only [hwrite]
        refine ⟨[], fun _ ↦ rfl, ?_⟩
        exact reports_unwritten rfl rfl hwarnings (fun h ↦ absurd h (by simp))
          hgrows
      | ok done =>
        simp only [hwrite]
        refine ⟨[(path, (declarations options ds).pretty)], fun h ↦ absurd rfl h, ?_⟩
        exact {
          output := rfl
          messages := String.append_empty.symm
          warnings := hwarnings
          first := List.prefix_rfl
          complete := fun _ ↦ rfl
          files := ⟨made, hgrows, by rw [FileSystem.writeAll, List.foldlM_cons, hwrite]; rfl⟩ }
    · rw [hparent] at hgrows
      refine ⟨[], fun _ ↦ rfl, ?_⟩
      exact reports_unwritten rfl rfl hwarnings (fun h ↦ absurd h (by simp))
        hgrows

end

end JsonEmbed
