import JsonEmbed.Conversion
import JsonEmbed.Proofs.Faithful
import JsonEmbed.Query.Fragment
import Mathlib.Data.List.Forall2

/-!
# Batches

What a batch becomes is said document by document. `HasOutput` says what the output of one document
is, `failure?` what its diagnostic is, and `Conversion.IsOf` puts the documents of a batch together:
outputs, diagnostics and events in the order of the documents. The relation holds of one document
(`isOf_ofDocument`) and of two batches that follow each other (`IsOf.append`), and so of every
batch, however many of its documents fail.

That a document has the program without a body only if it failed needs one fact about programs: the
first line after the preamble opens a block, for a value of any kind (`program_ne_shell`).
-/

namespace JsonEmbed

/-- No value has the program without a body. -/
theorem Json.program_ne_shell (options : Options) (v : Json) :
    v.program options ≠ unlines Program.shell := by
  intro h
  have hshell : ∀ l ∈ Program.shell, IsLine l := by decide
  have hlines := eq_of_unlines_eq (fun _ ↦ v.isLine_of_mem_lines options) hshell h
  rw [Program.lines_eq, Program.shell] at hlines
  -- where the body of the program begins, the other one returns
  have hfirst := (List.cons.inj (List.append_cancel_left hlines)).1
  exact absurd hfirst (show Block.opening 0 .struct ≠ "\treturn 0;" by decide)

namespace InputDocument

/-- The failure of a document that stands for no value. -/
def failure? [Query.Interpreter] (options : Options) (d : InputDocument) : Option Diagnostic :=
  match Document.load options d.bytes with
  | .ok _ => none
  | .error e => some ⟨d.name, e⟩

/-- The event of a document that is converted. -/
def converting (d : InputDocument) : Event :=
  .converting d.name (Conversion.outputName d.name "c")

/-- What the output of a document is: it has the program without a body if and only if the document
stands for no value, and else the program of its value. -/
structure HasOutput [Query.Interpreter] (options : Options) (d : InputDocument)
    (o : OutputDocument) : Prop where
  name : o.name = Conversion.outputName d.name "c"
  shell : o.text = unlines Program.shell ↔ (d.failure? options).isSome = true
  program : ∀ v, Document.load options d.bytes = .ok v → o.text = v.program options

end InputDocument

namespace Conversion

/-- What the conversion of a batch is: an output for each document in order, a diagnostic for each
that fails, a warning for each diagnostic, and one event for each of the others. -/
structure IsOf [Query.Interpreter] (options : Options) (ds : List InputDocument)
    (c : Conversion) : Prop where
  outputs : List.Forall₂ (InputDocument.HasOutput options) ds c.outputs
  diagnostics : c.diagnostics = ds.filterMap (InputDocument.failure? options)
  warnings : c.events.filter (·.level = "WARN") = c.diagnostics.map .emptyProgram
  conversions : c.events.filter (fun e ↦ e.level = "DEBUG" ∧ e.message = "converting") =
    (ds.filter fun d ↦ (d.failure? options).isNone).map InputDocument.converting

theorem append_assoc (a b c : Conversion) : (a.append b).append c = a.append (b.append c) := by
  simp only [append, List.append_assoc]

section

variable [Query.Interpreter] {options : Options}

/-! ### Documents and batches -/

theorem isOf_nil : IsOf options [] ⟨[], [], []⟩ :=
  ⟨.nil, rfl, rfl, rfl⟩

/-- A document that stands for no value has a diagnostic and a warning. -/
theorem isOf_of_load_error {d : InputDocument} {e : DocumentError}
    (h : Document.load options d.bytes = .error e) : IsOf options [d] (ofDocument options d) := by
  have hconversion : ofDocument options d = ⟨[⟨outputName d.name "c", unlines Program.shell⟩],
      [⟨d.name, e⟩], [.emptyProgram ⟨d.name, e⟩]⟩ := by
    rw [ofDocument, h]
    rfl
  have hfailure : d.failure? options = some ⟨d.name, e⟩ := by
    rw [InputDocument.failure?, h]
  have hothers : ([d].filter fun d ↦ (d.failure? options).isNone) = [] := by
    simp [hfailure]
  rw [hconversion]
  refine ⟨.cons ⟨rfl, ?_, ?_⟩ .nil, ?_, rfl, ?_⟩
  · rw [hfailure]
    exact ⟨fun _ ↦ rfl, fun _ ↦ rfl⟩
  · intro v hv
    rw [h] at hv
    exact absurd hv (by simp)
  · rw [List.filterMap_cons, hfailure, List.filterMap_nil]
  · rw [hothers]
    rfl

/-- A document that stands for a value has its program and the event of its conversion. -/
theorem isOf_of_load_ok {d : InputDocument} {v : Json}
    (h : Document.load options d.bytes = .ok v) : IsOf options [d] (ofDocument options d) := by
  have hconversion : ofDocument options d = ⟨[⟨outputName d.name "c", v.program options⟩], [],
      d.converting :: v.declarationEvents⟩ := by
    rw [ofDocument, h]
    rfl
  have hfailure : d.failure? options = none := by
    rw [InputDocument.failure?, h]
  have hothers : ([d].filter fun d ↦ (d.failure? options).isNone) = [d] := by
    simp [hfailure]
  rw [hconversion]
  refine ⟨.cons ⟨rfl, ?_, ?_⟩ .nil, ?_, ?_, ?_⟩
  · rw [hfailure]
    exact ⟨fun hs ↦ absurd hs (v.program_ne_shell options), fun hs ↦ Bool.noConfusion hs⟩
  · intro w hw
    rw [h] at hw
    rw [Except.ok.inj hw]
  · rw [List.filterMap_cons, hfailure, List.filterMap_nil]
  · -- what is told of a value that is no object is no warning
    cases v <;> rfl
  · rw [hothers]
    cases v <;> rfl

/-- What holds of a document by itself. -/
theorem isOf_ofDocument (d : InputDocument) : IsOf options [d] (ofDocument options d) := by
  rcases h : Document.load options d.bytes with e | v
  · exact isOf_of_load_error h
  · exact isOf_of_load_ok h

/-- What holds of two batches holds of both together. -/
theorem IsOf.append {xs ys : List InputDocument} {a b : Conversion} (ha : IsOf options xs a)
    (hb : IsOf options ys b) : IsOf options (xs ++ ys) (a.append b) where
  outputs := List.rel_append ha.outputs hb.outputs
  diagnostics := by
    rw [Conversion.append, ha.diagnostics, hb.diagnostics, List.filterMap_append]
  warnings := by
    rw [Conversion.append, List.filter_append, List.map_append, ha.warnings, hb.warnings]
  conversions := by
    rw [Conversion.append, List.filter_append, List.filter_append, List.map_append, ha.conversions,
      hb.conversions]

theorem isOf_ofDocuments (ds : List InputDocument) :
    IsOf options ds (ofDocuments options ds) := by
  induction ds with
  | nil => exact isOf_nil
  | cons d ds ih => exact (isOf_ofDocument d).append ih

/-- Batches that follow each other are converted one after the other. -/
theorem ofDocuments_append (xs ys : List InputDocument) :
    ofDocuments options (xs ++ ys) =
      (ofDocuments options xs).append (ofDocuments options ys) := by
  induction xs with
  | nil => rfl
  | cons d xs ih =>
    show (ofDocument options d).append (ofDocuments options (xs ++ ys)) =
      ((ofDocument options d).append (ofDocuments options xs)).append (ofDocuments options ys)
    rw [ih, append_assoc]

/-! ### Runs -/

theorem run_cSource (ds : List InputDocument) :
    run options .cSource ds = .ok (ofDocuments options ds) :=
  if_pos rfl

/-- The events of a run, which may have failed as a whole. -/
def eventsOf : Except ConversionError Conversion → List Event
  | .ok c => c.events
  | .error _ => []

/-- **Batches are converted document by document.** To C source every batch is converted, whatever
its documents are; batches that follow each other are converted one after the other; no value has
the program of a failure; and to any other format nothing is converted and nothing is told. -/
theorem run_isOf (options : Options) :
    (∀ ds, ∃ c, run options .cSource ds = .ok c ∧ IsOf options ds c) ∧
    (∀ xs ys, ∃ a b, run options .cSource xs = .ok a ∧ run options .cSource ys = .ok b ∧
      run options .cSource (xs ++ ys) = .ok ⟨a.outputs ++ b.outputs, a.diagnostics ++ b.diagnostics,
        a.events ++ b.events⟩) ∧
    (∀ v : Json, v.program options ≠ unlines Program.shell) ∧
    ∀ format, format ≠ .cSource → ∀ ds,
      run options format ds = .error (.unsupportedFormat format.format) ∧
        eventsOf (run options format ds) = [] := by
  refine ⟨fun ds ↦ ⟨_, run_cSource ds, isOf_ofDocuments ds⟩, fun xs ys ↦ ?_,
    Json.program_ne_shell options, fun format hformat ds ↦ ?_⟩
  · refine ⟨_, _, run_cSource xs, run_cSource ys, ?_⟩
    rw [run_cSource, ofDocuments_append]
    rfl
  · have hrun : run options format ds = .error (.unsupportedFormat format.format) :=
      if_neg hformat
    exact ⟨hrun, by rw [hrun]; rfl⟩

end

/-- A document that ends too early does not disturb the next one; JSON cannot be written. -/
theorem run_isOf_malformed :
    (∃ c, run {} .cSource [⟨"a.json", [0x7b]⟩, ⟨"b.json", [0x7b, 0x7d]⟩] = .ok c ∧
      c.outputs.length = 2 ∧ c.diagnostics.map Diagnostic.document = ["a.json"]) ∧
    FileFormat.json ≠ .cSource ∧
      run {} .json [⟨"b.json", [0x7b, 0x7d]⟩] = .error (.unsupportedFormat "json") := by
  obtain ⟨hsource, -, -, hothers⟩ := run_isOf {}
  obtain ⟨c, hrun, hc⟩ := hsource [⟨"a.json", [0x7b]⟩, ⟨"b.json", [0x7b, 0x7d]⟩]
  refine ⟨⟨c, hrun, hc.outputs.length_eq.symm, ?_⟩, by decide, (hothers .json (by decide) _).1⟩
  rw [hc.diagnostics]
  decide

end Conversion

end JsonEmbed
