import JsonEmbed.Proofs.Independence
import JsonEmbed.Proofs.Serialization

/-!
# Programs and declarations agree

The two commands read the same documents with the same options, each in its own way: one keeps the
programs of all documents in a list, the other their declarations in an object. They say the same of
each document. A document that stands for no value has the program without a body and no entry. The
program of any other one begins with the text of the block of its value, and its entry tells this
block and can be read back as it (`DescribedAlike`). Both name the same documents in the warning.
-/

namespace JsonEmbed

/-- What the program of a document and its entry say of it. -/
inductive DescribedAlike [Query.Interpreter] (options : Options) (entries : List (String × Json))
    (d : InputDocument) : Prop
  /-- The document stands for no value. -/
  | skipped (e : DocumentError) (hload : d.failure? options = some ⟨d.name, e⟩)
    (hprogram : d.programText options = unlines Program.shell)
    (hentry : entries.lookup d.name = none)
  /-- The document stands for a value. -/
  | declared (v : Json) (entry : Json) (rest : List String)
    (hload : Document.load options d.bytes = .ok v) (hfailure : d.failure? options = none)
    (hprogram : d.programText options =
      unlines (Program.preamble ++ ((v.block options).lines 0 ++ rest)))
    (hbody : d.programText options ≠ unlines Program.shell)
    (hentry : entries.lookup d.name = some entry) (htold : entry = (v.block options).toJson)
    (hread : Block.decode? entry = some (v.block options))

/-- What two runs tell of documents that stand for no value: both have one summary, and an event for
each of the documents. -/
structure WarnAlike (diagnostics : List Diagnostic) (programs declarations : Report) : Prop where
  summary : declarations.messages = warning diagnostics
  messages : ∃ told, programs.messages = warning diagnostics ++ told
  shells : programs.events.filter (·.level = "WARN") = diagnostics.map .emptyProgram
  skips : declarations.events.filter (·.level = "WARN") = diagnostics.map .skipped

section

variable [Query.Interpreter]

theorem AreEntries.describedAlike {options : Options} {ds : List InputDocument}
    {entries : List (String × Json)} (h : AreEntries options ds entries) {d : InputDocument}
    (hd : d ∈ ds) : DescribedAlike options entries d := by
  have hentry := h.own d hd
  rw [InputDocument.declaration?] at hentry
  cases hload : Document.load options d.bytes with
  | error e =>
    rw [hload] at hentry
    refine .skipped e ?_ ?_ hentry
    · rw [InputDocument.failure?, hload]
    · rw [InputDocument.programText, hload]
  | ok v =>
    rw [hload] at hentry
    have hprogram : d.programText options = v.program options := by
      rw [InputDocument.programText, hload]
    refine .declared v _ (Program.statements (v.assignments options) ++ ("" :: Program.epilogue))
      hload ?_ ?_ (hprogram ▸ v.program_ne_shell options) hentry rfl (Block.decode?_toJson _)
    · rw [InputDocument.failure?, hload]
    · rw [hprogram, Json.program, Program.lines_eq]

theorem warnAlike_of_reports {fs : FileSystem} {format : String} {directory file : Option String}
    {options : Options} {ds : List InputDocument} {written written' : List (String × String)}
    {programs declarations : Report}
    (h : Reports fs (.programs format directory) options ds written programs)
    (h' : Reports fs (.declarations file) options ds written' declarations) :
    WarnAlike (ds.filterMap (InputDocument.failure? options)) programs declarations where
  summary := h'.messages.trans String.append_empty
  messages := ⟨_, h.messages⟩
  shells := h.warnings
  skips := h'.warnings

/-- Programs are made of what declarations are made of. -/
theorem converted_of_cSource (fs : FileSystem) (s : Settings) {format : String}
    (hformat : FileFormat.lookup? format = some .cSource) :
    converted fs s format = (fun p ↦ Conversion.ofDocuments p.1 p.2) <$> declared fs s := by
  rw [converted_eq, hformat]
  cases declared fs s <;> rfl

end

namespace Command

/-- **Programs and declarations agree.** For the same inputs and options, to write programs and to
write declarations fail alike where something cannot be read. Else both report on the same
documents: they warn alike of those that stand for no value, and the declarations are an object that
describes every document as its program does, with the names of the others as its keys, in the order
in which they come first. What describes a document is the block of its value: its lines follow the
preamble of the program, and the entry is read back as it. -/
theorem describedAlike_of_run [Query.Interpreter] (fs : FileSystem) {s : Settings}
    (hno : s.noOp = false) {format : String}
    (hformat : FileFormat.lookup? format = some .cSource) (directory file : Option String) :
    let programs := run fs ⟨s, .programs format directory⟩
    let declarations := run fs ⟨s, .declarations file⟩
    (∃ f, programs = .failed fs f ∧ declarations = .failed fs f) ∨
    ∃ options ds entries, declared fs s = .ok (options, ds) ∧
      JsonEmbed.declarations options ds = .object entries ∧
      (∃ written, Reports fs (.programs format directory) options ds written programs) ∧
      (∃ written, Reports fs (.declarations file) options ds written declarations) ∧
      WarnAlike (ds.filterMap (InputDocument.failure? options)) programs declarations ∧
      entries.map Prod.fst =
        ((ds.filter fun d ↦ (d.failure? options).isNone).map InputDocument.name).eraseDups ∧
      ∀ d ∈ ds, DescribedAlike options entries d := by
  intro programs declarations
  have hconverted := converted_of_cSource fs s hformat
  cases hread : declared fs s with
  | error f =>
    rw [hread] at hconverted
    refine Or.inl ⟨f, ?_, ?_⟩
    · exact (run_programs fs hno format directory).trans (by rw [runPrograms, hconverted]; rfl)
    · exact (run_declarations fs hno file).trans (by rw [runDeclarations, hread])
  | ok found =>
    obtain ⟨options, ds⟩ := found
    rw [hread] at hconverted
    have hprograms : programs = deliver fs directory (Conversion.ofDocuments options ds) :=
      (run_programs fs hno format directory).trans (by rw [runPrograms, hconverted]; rfl)
    have hdeclarations : declarations = runDeclarations fs s file := run_declarations fs hno file
    obtain ⟨entries, hobject, hentries⟩ :=
      Inputs.haveEntries_of_documents (declared_eq_ok hread).2 options
    -- every run goes together with itself
    obtain ⟨-, -, written, -, -, hreports, -⟩ :=
      parallel_deliver (.refl fs) (rfl : ds.map InputDocument.name = _) format directory
    obtain ⟨written', -, hreports'⟩ := exists_reports_runDeclarations hread file
    rw [← hprograms] at hreports
    rw [← hdeclarations] at hreports'
    exact Or.inr ⟨options, ds, entries, rfl, hobject, ⟨written, hreports⟩, ⟨written', hreports'⟩,
      warnAlike_of_reports hreports hreports', hentries.names,
      fun d hd ↦ hentries.describedAlike hd⟩

/-- A document that is given twice has one entry, which tells its block, and one that ends too early
has none. -/
theorem describedAlike_of_run_repeated :
    let a : InputDocument := ⟨"a.json", Utf8.encode "\x7b\"n\": 1, \"xs\": [true]\x7d"⟩
    let b : InputDocument := ⟨"b.json", [0x5b]⟩
    let fs : FileSystem := ⟨[], [(["a.json"], .file a.bytes), (["b.json"], .file b.bytes)]⟩
    let s : Settings := { inputs := ["a.json", "b.json", "a.json"] }
    let r := run fs ⟨s, .declarations none⟩
    s.noOp = false ∧ FileFormat.lookup? "c" = some .cSource ∧
      (∃ entries, r.output = (Json.object entries).pretty ++ "\n" ∧
        entries.map Prod.fst = ["a.json"] ∧
        DescribedAlike {} entries a ∧ DescribedAlike {} entries b) ∧
      r.output = unlines
        ["\x7b", "  \"a.json\": \x7b", "    \"name\": \"jsonObject\",",
          "    \"kind\": \"Struct\",", "    \"fields\": [",
          "      \x7b", "        \"name\": \"n\",", "        \"tag\": \"Int\",",
          "        \"layout\": \"Scalar\"", "      \x7d,",
          "      \x7b", "        \"name\": \"xs\",",
          "        \"tag\": \x7b", "          \"List\": \"Boolean\"", "        \x7d,",
          "        \"layout\": \x7b", "          \"Array\": \x7b", "            \"len\": 1",
          "          \x7d", "        \x7d", "      \x7d",
          "    ]", "  \x7d", "\x7d"] := by
  intro a b fs s r
  have hformat : FileFormat.lookup? "c" = some .cSource := by decide
  have hfound : declared fs s = .ok ({}, [a, b, a]) := by decide +kernel
  refine ⟨rfl, hformat, ?_, by decide +kernel⟩
  rcases describedAlike_of_run fs (s := s) rfl hformat none none with
    ⟨f, -, hfailed⟩ | ⟨options, ds, entries, hread, hobject, -, ⟨_, hreports⟩, -, hnames, hall⟩
  · have hnone : r.failure = none := by decide +kernel
    rw [show r = _ from hfailed] at hnone
    exact absurd hnone (by simp [Report.failed])
  · obtain ⟨rfl, rfl⟩ := Prod.mk.inj (Except.ok.inj (hfound.symm.trans hread))
    refine ⟨entries, ?_, hnames.trans (by decide +kernel), hall a (by simp), hall b (by simp)⟩
    rw [show r.output = _ from hreports.output, Task.printed, hobject]

end Command

end JsonEmbed
