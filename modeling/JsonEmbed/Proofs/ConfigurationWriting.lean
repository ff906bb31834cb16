import JsonEmbed.Proofs.ConfigurationReading
import JsonEmbed.Proofs.Rereading

/-!
# Options are read back from their configuration

Options are written as an object of all five (`Options.toJson`), and reading this gives the same
options. Most of it has nothing to do with which options there are: whatever keys are given, and
whatever is given for them, the compact text of the object is a text of these members in the grammar
of configurations (`Options.objectText_compact`). What the reader makes of such a text is known.
What is left is that each option has the form in which it was written.
-/

namespace JsonEmbed

namespace Scanner

/-- A quoted string begins with its quote. -/
theorem starts_quote (text : String) : Json.Starts (Utf8.encode (Json.quote text)) := by
  rw [Json.quote, Utf8.encode_ofList]
  exact ⟨0x22, _, rfl, rfl, by decide⟩

end Scanner

namespace Options

open Scanner

/-! ### Lists of items -/

section Items

variable {α : Type} {close : UInt8} {item : α → Bytes → Bytes → Prop} {text : α → String}

/-- What is behind an item: the closing mark, or a comma and the items that are left. -/
def afterItem (close : UInt8) (text : α → String) (s : Bytes) : List α → Bytes
  | [] => close :: s
  | x :: xs => 0x2c :: (Utf8.encode (Json.separated "," ((x :: xs).map text)) ++ close :: s)

theorem encode_separated_append (x : α) (xs : List α) (s : Bytes) :
    Utf8.encode (Json.separated "," ((x :: xs).map text)) ++ close :: s =
      Utf8.encode (text x) ++ afterItem close text s xs := by
  cases xs with
  | nil => rfl
  | cons y ys =>
    rw [List.map_cons, List.map_cons, Json.encode_separated_cons, List.append_assoc]
    rfl

variable (hclose : isBlank close = false) (hitem : ∀ x s, item x (Utf8.encode (text x) ++ s) s)
  (hstarts : ∀ x, Json.Starts (Utf8.encode (text x)))

include hclose hitem hstarts

theorem items_afterItem (xs : List α) (s : Bytes) :
    Items close item false xs (afterItem close text s xs) s := by
  have hskip : skipBlank (close :: s) = close :: s := List.dropWhile_cons_of_neg (by simp [hclose])
  induction xs with
  | nil => exact .close hskip
  | cons x xs ih =>
    refine .item (.later rfl) ?_ ih
    rw [encode_separated_append, Json.skipBlank_of_starts ((hstarts x).append _)]
    exact hitem x _

/-- Items that are written one after the other, with commas between them, are found. -/
theorem items_separated (xs : List α) (s : Bytes) :
    Items close item true xs (Utf8.encode (Json.separated "," (xs.map text)) ++ close :: s) s := by
  cases xs with
  | nil => exact .close (List.dropWhile_cons_of_neg (by simp [hclose]))
  | cons x xs =>
    refine .item .first ?_ (items_afterItem hclose hitem hstarts xs s)
    rw [encode_separated_append, Json.skipBlank_of_starts ((hstarts x).append _)]
    exact hitem x _

end Items

/-! ### Objects of options -/

/-- What is given for an option, as a JSON value. -/
def Given.toJson : Given → Json
  | text s => .string s
  | null => .null
  | tagged name => .object [(name, .null)]

/-- An object of options. -/
def object (es : List (Key × Given)) : Json :=
  .object (es.map fun e ↦ (e.1.name, e.2.toJson))

theorem encode_tagged (name : String) :
    Utf8.encode (Given.tagged name).toJson.compact =
      0x7b :: (Utf8.encode (Json.quote name) ++ 0x3a :: 0x6e :: (ull ++ [0x7d])) := by
  have hopening : Utf8.encode "\x7b" = [0x7b] := by decide
  have hcolon : Utf8.encode ":" = [0x3a] := by decide
  have hnull : Utf8.encode "null" = 0x6e :: ull := by decide
  have hclosing : Utf8.encode "\x7d" = [0x7d] := by decide
  show Utf8.encode ("\x7b" ++ (Json.quote name ++ ":" ++ "null") ++ "\x7d") = _
  simp only [Utf8.encode_append, hopening, hcolon, hnull, hclosing, List.append_assoc,
    List.cons_append, List.nil_append]

/-- What is given is a text of itself. -/
theorem givenText_compact (g : Given) (s : Bytes) :
    GivenText g (Utf8.encode g.toJson.compact ++ s) s := by
  cases g with
  | text t => exact .text (stringText_quote t s)
  | null => exact .null
  | tagged name =>
    rw [encode_tagged, List.cons_append, List.append_assoc]
    refine .tagged (t := 0x3a :: 0x6e :: (ull ++ 0x7d :: s)) ?_ rfl rfl rfl
    rw [Json.skipBlank_of_starts ((starts_quote name).append _)]
    exact stringText_quote name _

/-- The text of one member of an object of options. -/
def memberText (e : Key × Given) : String :=
  Json.quote e.1.name ++ ":" ++ e.2.toJson.compact

theorem memberTexts_object (es : List (Key × Given)) :
    Json.compact.memberTexts (es.map fun e ↦ (e.1.name, e.2.toJson)) = es.map memberText := by
  induction es with
  | nil => rfl
  | cons e es ih => exact congrArg (memberText e :: ·) ih

theorem starts_compact (g : Given) : Json.Starts (Utf8.encode g.toJson.compact) := by
  cases g with
  | text t => exact starts_quote t
  | null => exact ⟨0x6e, _, rfl, rfl, by decide⟩
  | tagged name =>
    rw [encode_tagged]
    exact ⟨0x7b, _, rfl, rfl, by decide⟩

theorem memberText_compact (e : Key × Given) (s : Bytes) :
    MemberText e (Utf8.encode (memberText e) ++ s) s := by
  refine ⟨0x3a :: (Utf8.encode e.2.toJson.compact ++ s), _, ?_, rfl, ?_⟩
  · simp only [memberText, Utf8.encode_append, List.append_assoc]
    exact stringText_quote e.1.name _
  · rw [Json.skipBlank_of_starts ((starts_compact e.2).append _)]
    exact givenText_compact e.2 s

/-- **An object of options is a text of its members**, whatever is given for them and in whatever
order. -/
theorem objectText_compact (es : List (Key × Given)) (s : Bytes) :
    ObjectText es (Utf8.encode (object es).compact ++ s) s := by
  have htext : Utf8.encode (object es).compact ++ s =
      0x7b :: (Utf8.encode (Json.separated "," (es.map memberText)) ++ 0x7d :: s) := by
    rw [← memberTexts_object, object, Json.compact, Utf8.encode_append, Utf8.encode_append,
      List.append_assoc, List.append_assoc]
    rfl
  rw [htext]
  refine ⟨_, rfl, ?_⟩
  refine items_separated rfl memberText_compact (fun e ↦ ?_) es s
  simp only [memberText, Utf8.encode_append, List.append_assoc]
  exact (starts_quote e.1.name).append _

/-! ### Options as they are written -/

/-- What may be missing is written as null. -/
def Given.ofText? : Option String → Given
  | some s => text s
  | none => null

/-- What is written for options: all five, in order. -/
def written (o : Options) : List (Key × Given) :=
  [(.rootName, .text o.rootName), (.nestedLayout, .text o.nestedLayout.name),
    (.arrayInitializer, .text o.arrayInitializer.name), (.pointer, .ofText? o.pointer),
    (.filter, .ofText? o.filter)]

theorem toJson_eq (o : Options) : o.toJson = object o.written := by
  obtain ⟨rootName, layout, initializer, pointer, filter⟩ := o
  cases pointer <;> cases filter <;> rfl

theorem ofName?_layoutName (l : NestedLayout) : NestedLayout.ofName? l.name = some l := by
  cases l <;> rfl

theorem ofName?_initializerName (i : ArrayInitializer) :
    ArrayInitializer.ofName? i.name = some i := by
  cases i <;> rfl

theorem textOrNull?_ofText? (text? : Option String) :
    (Given.ofText? text?).textOrNull? = some text? := by
  cases text? <;> rfl

/-- Options that are set to what is written for them are the same, whatever they were before. -/
theorem setAll?_written (o before : Options) : setAll? o.written before = some o := by
  simp [setAll?, written, Key.set?, Given.text?, Given.name?, ofName?_layoutName,
    ofName?_initializerName, textOrNull?_ofText?]

/-- **Options are read back**, from the bytes of their compact text and from the text itself. -/
theorem read_toJson (o : Options) :
    read (Utf8.encode o.toJson.compact) = .ok o ∧ readText o.toJson.compact = .ok o := by
  have hread : read (Utf8.encode o.toJson.compact) = .ok o := by
    have hobject := objectText_compact o.written []
    rw [List.append_nil, ← toJson_eq] at hobject
    have hkeys : (o.written.map Prod.fst).Nodup :=
      show [Key.rootName, .nestedLayout, .arrayInitializer, .pointer, .filter].Nodup by decide
    exact read_eq_ok_iff.2
      ⟨[], configuration_eq_ok_iff.2 (.inl ⟨_, hobject, hkeys, setAll?_written o {}⟩)⟩
  exact ⟨hread, hread⟩

end Options

end JsonEmbed
