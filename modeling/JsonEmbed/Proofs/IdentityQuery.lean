import JsonEmbed.Document
import JsonEmbed.Proofs.ExactReading
import JsonEmbed.Proofs.Limits
import JsonEmbed.Proofs.Rereading
import JsonEmbed.Query.Fragment

/-!
# The identity query

The query `.` gives the document back, but on the way its text is read again. So loading with this
query is loading without one and rereading (`Document.load_identity`): errors, the structure, keys
and their order, strings, integers and the signs of fractions stay, and the two results are the same
exactly if every fraction of the value is reread as itself. Fractions of moderate size are; but
reading does not round correctly, and not every fraction is (`Document.load_identity_drifts`).

Of the interpreter all that is assumed is that it knows this query (`Query.RunsIdentity`).
-/

namespace JsonEmbed

namespace Json

/-! ### Values that are reread as themselves -/

theorem rereadElements_eq_map (xs : List Json) : reread.rereadElements xs = xs.map reread := by
  induction xs with
  | nil => rfl
  | cons x xs ih => exact congrArg (x.reread :: ·) ih

theorem rereadMembers_eq_map (ms : List (String × Json)) :
    reread.rereadMembers ms = ms.map fun m ↦ (m.1, m.2.reread) := by
  induction ms with
  | nil => rfl
  | cons m ms ih => exact congrArg ((m.1, m.2.reread) :: ·) ih

theorem mem_partsOfElements {p : Json} {xs : List Json} :
    p ∈ parts.partsOfElements xs ↔ ∃ x ∈ xs, p ∈ x.parts := by
  refine ⟨exists_of_mem_partsOfElements, ?_⟩
  rintro ⟨x, hx, hp⟩
  induction xs with
  | nil => exact absurd hx List.not_mem_nil
  | cons first xs ih =>
    rcases List.mem_cons.1 hx with rfl | hxs
    · exact List.mem_append_left _ hp
    · exact List.mem_append_right _ (ih hxs)

theorem mem_partsOfMembers {p : Json} {ms : List (String × Json)} :
    p ∈ parts.partsOfMembers ms ↔ ∃ m ∈ ms, p ∈ m.2.parts := by
  refine ⟨exists_of_mem_partsOfMembers, ?_⟩
  rintro ⟨m, hm, hp⟩
  induction ms with
  | nil => exact absurd hm List.not_mem_nil
  | cons first ms ih =>
    rcases List.mem_cons.1 hm with rfl | hms
    · exact List.mem_append_left _ hp
    · exact List.mem_append_right _ (ih hms)

theorem map_eq_self_iff {α : Type} {f : α → α} {l : List α} : l.map f = l ↔ ∀ a ∈ l, f a = a := by
  have hid := List.map_eq_map_iff (f := f) (g := id) (l := l)
  rwa [List.map_id] at hid

/-- Every fraction of a value is read from its own text as itself. -/
def FractionsKept (v : Json) : Prop :=
  ∀ x, number (.double x) ∈ v.parts →
    read (Utf8.encode (Number.double x).text) = .ok (number (.double x))

theorem read_text_double_iff {x : Binary64} (h : (Number.double x).Valid) :
    read (Utf8.encode (Number.double x).text) = .ok (number (.double x)) ↔ x.reread = x := by
  rw [read_numberText h, Number.reread, Except.ok.injEq, number.injEq, Number.double.injEq]

theorem fractionsKept_array {xs : List Json} :
    (array xs).FractionsKept ↔ ∀ x ∈ xs, x.FractionsKept := by
  constructor
  · intro h x hx f hf
    exact h f (List.mem_cons_of_mem _ (mem_partsOfElements.2 ⟨x, hx, hf⟩))
  · intro h f hf
    have hinside := (List.mem_cons.1 hf).resolve_left (by simp)
    obtain ⟨x, hx, hpart⟩ := mem_partsOfElements.1 hinside
    exact h x hx f hpart

theorem fractionsKept_object {ms : List (String × Json)} :
    (object ms).FractionsKept ↔ ∀ m ∈ ms, m.2.FractionsKept := by
  constructor
  · intro h m hm f hf
    exact h f (List.mem_cons_of_mem _ (mem_partsOfMembers.2 ⟨m, hm, hf⟩))
  · intro h f hf
    have hinside := (List.mem_cons.1 hf).resolve_left (by simp)
    obtain ⟨m, hm, hpart⟩ := mem_partsOfMembers.1 hinside
    exact h m hm f hpart

/-- A value is reread as itself exactly if all its fractions are. -/
theorem reread_eq_self_iff {d : Nat} {v : Json} (h : v.WithinLimits d) :
    v.reread = v ↔ v.FractionsKept := by
  induction h with
  | null | boolean | string =>
    exact ⟨fun _ x hx ↦ absurd (List.mem_singleton.1 hx) (by simp), fun _ ↦ rfl⟩
  | @number d n hn =>
    cases n with
    | integer i =>
      exact ⟨fun _ x hx ↦ absurd (List.mem_singleton.1 hx) (by simp), fun _ ↦ rfl⟩
    | double x =>
      rw [reread, Number.reread, number.injEq, Number.double.injEq, ← read_text_double_iff hn]
      constructor
      · intro hread y hy
        obtain rfl : y = x := by simpa using List.mem_singleton.1 hy
        exact hread
      · exact fun hkept ↦ hkept x List.mem_cons_self
  | @array d xs _ ih =>
    rw [fractionsKept_array, reread, rereadElements_eq_map, array.injEq, map_eq_self_iff]
    exact forall₂_congr ih
  | @object d ms _ _ ih =>
    have hmember : ∀ m : String × Json, (m.1, m.2.reread) = m ↔ m.2.reread = m.2 := by
      rintro ⟨k, v⟩
      simp
    rw [fractionsKept_object, reread, rereadMembers_eq_map, object.injEq, map_eq_self_iff]
    exact forall₂_congr fun m hm ↦ (hmember m).trans (ih m hm)

end Json

/-! ### Running the query -/

namespace Query

/-- The interpreter knows the identity query: it gives its input, printed as JSON text with the
shortest digits for every fraction. -/
def RunsIdentity [Interpreter] : Prop :=
  ∃ filter, Interpreter.compile "." = .ok filter ∧ ∀ v, filter v = .pure (Value.ofJson v).text

theorem runsIdentity_fragment : RunsIdentity := by
  have htokens : Token.scan "." = some [.symbol "."] := by decide +kernel
  have hterm : Term.parse? "." = some .identity := by
    rw [Term.parse?, htokens]
    rfl
  refine ⟨fun v ↦ .pure (Value.ofJson v).text, ?_, fun v ↦ rfl⟩
  simp only [Interpreter.compile, hterm]
  rfl

/-- **The identity query gives what the text of its input is read as.** -/
theorem run_identity [Interpreter] (hidentity : RunsIdentity) {v : Json}
    (h : v.WithinLimits Json.maxDepth) : run "." v = .ok [v.reread] := by
  obtain ⟨filter, hcompile, hfilter⟩ := hidentity
  rw [run, hcompile]
  show readBack (filter v) = .ok [v.reread]
  rw [hfilter, Results.pure, readBack, Json.read_text_ofJson h]
  rfl

end Query

namespace Document

section

variable [Query.Interpreter] {options : Options} (bytes : Bytes)

/-- Loading with the identity query is loading without a query and rereading, errors included. -/
theorem load_identity_eq (hidentity : Query.RunsIdentity) (hfilter : options.filter = none) :
    load { options with filter := some "." } bytes = (load options bytes).map Json.reread := by
  have hquery : ∀ part, query options part = .ok part := by
    intro part
    rw [query, hfilter]
  rw [load, load]
  -- bytes that are no document and pointers to nothing fail before any query
  cases hparse : parse bytes with
  | error e => rfl
  | ok v =>
    have hv := Json.withinLimits_of_read (eq_ok_of_mapError hparse)
    show (point options v).bind _ = Except.map Json.reread ((point options v).bind _)
    cases hpoint : point options v with
    | error e => rfl
    | ok part =>
      show querySingle "." part = Except.map Json.reread (query options part)
      rw [hquery, querySingle, Query.run_identity hidentity (withinLimits_of_point hv hpoint)]
      rfl

theorem fractionsKept_of_isModerate {v : Json} (hload : load options bytes = .ok v)
    (hmoderate : ∀ x, .number (.double x) ∈ v.parts → x.IsModerate) : v.FractionsKept := by
  intro x hx
  have hvalid := (withinLimits_of_load hload).valid hx
  rw [Json.read_text_double_iff hvalid]
  exact Binary64.reread_eq_self (Number.valid_double.1 hvalid) (hmoderate x hx)

/-- **What the identity query does to a document**, if the interpreter knows it. It rereads the value
that is loaded without a query, and keeps every error. Both give the same exactly if all fractions
of this value are read from their texts as themselves, which moderate ones are. -/
theorem load_identity (hidentity : Query.RunsIdentity) (hfilter : options.filter = none) :
    load { options with filter := some "." } bytes = (load options bytes).map Json.reread ∧
      (load { options with filter := some "." } bytes = load options bytes ↔
        ∀ v, load options bytes = .ok v → v.FractionsKept) ∧
      ∀ v, load options bytes = .ok v →
        (∀ x, .number (.double x) ∈ v.parts → x.IsModerate) →
        load { options with filter := some "." } bytes = .ok v := by
  have hreread := load_identity_eq bytes hidentity hfilter
  have hkept : ∀ v, load options bytes = .ok v → (v.reread = v ↔ v.FractionsKept) :=
    fun v hload ↦ Json.reread_eq_self_iff (withinLimits_of_load hload)
  refine ⟨hreread, ?_, ?_⟩
  · rw [hreread]
    cases hload : load options bytes with
    | error e => exact ⟨fun _ v hv ↦ absurd hv (by simp), fun _ ↦ rfl⟩
    | ok v =>
      constructor
      · intro hmap w hw
        obtain rfl := Except.ok.inj hw
        exact (hkept v hload).1 (Except.ok.inj hmap)
      · intro hall
        exact congrArg Except.ok ((hkept v hload).2 (hall v rfl))
  · intro v hload hmoderate
    rw [hreread, hload]
    exact congrArg Except.ok ((hkept v hload).2 (fractionsKept_of_isModerate bytes hload hmoderate))

end

/-- Strings, large integers, negative zero and the order of keys go through, below a pointer. -/
theorem load_identity_nested :
    let options : Options := { pointer := some "/p" }
    let bytes := Utf8.encode
      "\x7b\"p\": \x7b\"b\": [-0.0, 18446744073709551615, 0.1], \"a\": \"\\u0007\\\"\"\x7d\x7d"
    Query.RunsIdentity ∧ options.filter = none ∧
      load { options with filter := some "." } bytes = (load options bytes).map Json.reread ∧
      (load { options with filter := some "." } bytes).toOption.map Json.compact =
        some "\x7b\"b\":[-0.0,18446744073709551615,0.1],\"a\":\"\\u0007\\\"\"\x7d" := by
  intro options bytes
  have hidentity := Query.runsIdentity_fragment
  refine ⟨hidentity, rfl, (load_identity bytes hidentity rfl).1, ?_⟩
  decide +kernel

/-- The double of `1.1e24` moves to its neighbour when its text is read again. -/
theorem load_identity_drifts :
    (load {} (Utf8.encode "1.1e24")).toOption.map Json.compact = some "1.0999999999999999e+24" ∧
      (load { filter := some "." } (Utf8.encode "1.1e24")).toOption.map Json.compact =
        some "1.1e+24" ∧
      load { filter := some "." } (Utf8.encode "1.1e24") ≠ load {} (Utf8.encode "1.1e24") := by
  have hplain : (load {} (Utf8.encode "1.1e24")).toOption.map Json.compact =
      some "1.0999999999999999e+24" := by decide +kernel
  have hfiltered : (load { filter := some "." } (Utf8.encode "1.1e24")).toOption.map
      Json.compact = some "1.1e+24" := by decide +kernel
  refine ⟨hplain, hfiltered, fun h ↦ ?_⟩
  rw [h, hplain] at hfiltered
  exact absurd hfiltered (by decide)

end Document

end JsonEmbed
