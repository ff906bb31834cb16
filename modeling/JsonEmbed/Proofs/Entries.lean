import JsonEmbed.Proofs.Batch
import JsonEmbed.Proofs.Delivery
import JsonEmbed.Proofs.Limits

/-!
# Entries of documents

The declarations of several documents are one object, with an entry for every name of a document
that stands for a value (`HaveEntries`). If documents had one name and different bytes, the entry
would be that of the last one; but documents that are read in one run have the bytes of the file
that they are named after, so the entry of each is its own (`Inputs.haveEntries_of_documents`), also
if one is given several times.
-/

namespace JsonEmbed

/-! ### Putting members one after the other -/

namespace Json

variable {α : Type}

theorem lookup_cons_eq_ite (k : String) (m : String × α) (ms : List (String × α)) :
    (m :: ms).lookup k = if k = m.1 then some m.2 else ms.lookup k := by
  rw [List.lookup_cons]
  by_cases hk : k = m.1
  · rw [if_pos hk, beq_iff_eq.2 hk]
  · rw [if_neg hk, beq_eq_false_iff_ne.2 hk]

theorem lookup_put (key k : String) (value : α) (ms : List (String × α)) :
    (put key value ms).lookup k = if k = key then some value else ms.lookup k := by
  induction ms with
  | nil => rw [put, lookup_cons_eq_ite]
  | cons m ms ih =>
    obtain ⟨old, v⟩ := m
    rw [put]
    by_cases hold : old = key
    · rw [if_pos hold, lookup_cons_eq_ite, lookup_cons_eq_ite]
      dsimp only
      rw [hold]
      split <;> rfl
    · rw [if_neg hold, lookup_cons_eq_ite, lookup_cons_eq_ite, ih]
      dsimp only
      by_cases hk : k = old
      · rw [if_pos hk, if_neg (hk ▸ hold), if_pos hk]
      · rw [if_neg hk, if_neg hk]

theorem ofMembers_concat (ms : List (String × α)) (m : String × α) :
    ofMembers (ms ++ [m]) = put m.1 m.2 (ofMembers ms) := by
  rw [ofMembers, List.foldl_append]
  rfl

/-- The last member of a key counts. -/
theorem lookup_ofMembers (k : String) (ms : List (String × α)) :
    (ofMembers ms).lookup k = ms.reverse.lookup k := by
  induction ms using List.reverseRecOn with
  | nil => rfl
  | append_singleton ms m ih =>
    rw [ofMembers_concat, lookup_put, ih, List.reverse_concat, lookup_cons_eq_ite]

/-- The first member of a key says where it stands. -/
theorem map_fst_ofMembers (ms : List (String × α)) :
    (ofMembers ms).map Prod.fst = (ms.map Prod.fst).eraseDups := by
  induction ms using List.reverseRecOn with
  | nil => rfl
  | append_singleton ms m ih =>
    rw [ofMembers_concat, map_fst_put, ih, List.map_append, List.map_singleton,
      List.eraseDups_append]
    by_cases hm : m.1 ∈ ms.map Prod.fst
    · have hnew : [m.1].removeAll (ms.map Prod.fst) = [] := by simp [List.removeAll, hm]
      rw [if_pos (List.mem_eraseDups.2 hm), hnew, List.eraseDups_nil, List.append_nil]
    · have hnew : [m.1].removeAll (ms.map Prod.fst) = [m.1] := by simp [List.removeAll, hm]
      rw [if_neg (mt List.mem_eraseDups.1 hm), hnew]
      rfl

end Json

/-! ### Documents -/

section Documents

variable [Query.Interpreter]

namespace InputDocument

/-- The declaration of a document that stands for a value, as a JSON value. -/
def declaration? (options : Options) (d : InputDocument) : Option Json :=
  (Document.load options d.bytes).toOption.map fun v ↦ (v.block options).toJson

theorem isSome_declaration? (options : Options) (d : InputDocument) :
    (d.declaration? options).isSome = (d.failure? options).isNone := by
  rw [declaration?, failure?]
  cases Document.load options d.bytes <;> rfl

end InputDocument

/-- The members that documents put into their declarations. -/
def declarationMembers (options : Options) (ds : List InputDocument) : List (String × Json) :=
  ds.filterMap fun d ↦ (d.declaration? options).map (Prod.mk d.name)

section Members

variable {options : Options} {ds : List InputDocument}

theorem declarations_eq (options : Options) (ds : List InputDocument) :
    declarations options ds = .object (Json.ofMembers (declarationMembers options ds)) := by
  rw [declarations, declarationMembers]
  congr 3
  funext d
  rw [InputDocument.declaration?]
  cases Document.load options d.bytes <;> rfl

theorem mem_declarationMembers {m : String × Json} :
    m ∈ declarationMembers options ds ↔
      ∃ d ∈ ds, d.name = m.1 ∧ d.declaration? options = some m.2 := by
  rw [declarationMembers, List.mem_filterMap]
  refine exists_congr fun d ↦ and_congr_right fun _ ↦ ?_
  rw [Option.map_eq_some_iff]
  constructor
  · rintro ⟨v, hv, rfl⟩
    exact ⟨rfl, hv⟩
  · rintro ⟨hname, hv⟩
    exact ⟨m.2, hv, by rw [hname]⟩

theorem map_fst_declarationMembers (options : Options) (ds : List InputDocument) :
    (declarationMembers options ds).map Prod.fst =
      (ds.filter fun d ↦ (d.failure? options).isNone).map InputDocument.name := by
  induction ds with
  | nil => rfl
  | cons d ds ih =>
    have hsome := d.isSome_declaration? options
    rw [declarationMembers] at ih ⊢
    rw [List.filterMap_cons, List.filter_cons, ← hsome]
    cases d.declaration? options with
    | none => exact ih
    | some v => exact congrArg (d.name :: ·) ih

/-- If all documents of one name are one document, its member is found under the name. -/
theorem lookup_reverse_declarationMembers {d : InputDocument} (hd : d ∈ ds)
    (hsame : ∀ e ∈ ds, e.name = d.name → e = d) :
    (declarationMembers options ds).reverse.lookup d.name = d.declaration? options := by
  have hmembers : ∀ v, (d.name, v) ∈ (declarationMembers options ds).reverse →
      d.declaration? options = some v := by
    intro v hv
    obtain ⟨e, he, hname, hdeclaration⟩ := mem_declarationMembers.1 (List.mem_reverse.1 hv)
    rwa [hsame e he hname] at hdeclaration
  cases hfound : (declarationMembers options ds).reverse.lookup d.name with
  | some v =>
    obtain ⟨before, after, hsplit, -⟩ := List.lookup_eq_some_iff.1 hfound
    refine (hmembers v ?_).symm
    rw [hsplit]
    exact List.mem_append_right _ List.mem_cons_self
  | none =>
    rcases hdeclaration : d.declaration? options with - | v
    · rfl
    · have hmem : (d.name, v) ∈ declarationMembers options ds :=
        mem_declarationMembers.2 ⟨d, hd, rfl, hdeclaration⟩
      have hne := List.lookup_eq_none_iff.1 hfound _ (List.mem_reverse.2 hmem)
      exact absurd hne (by simp)

end Members

end Documents

/-- What the entries of documents are: there is one for every name of a document that stands for a
value, in the order in which the names come first, and that of each document is its own. -/
structure AreEntries [Query.Interpreter] (options : Options) (ds : List InputDocument)
    (entries : List (String × Json)) : Prop where
  names : entries.map Prod.fst =
    ((ds.filter fun d ↦ (d.failure? options).isNone).map InputDocument.name).eraseDups
  own : ∀ d ∈ ds, entries.lookup d.name = d.declaration? options

/-- Documents that are read under one name are one document. -/
theorem Inputs.eq_of_mem_documents {fs : FileSystem} {inputs : List String}
    {ds : List InputDocument} (h : documents fs inputs = .ok ds) {d e : InputDocument}
    (hd : d ∈ ds) (he : e ∈ ds) (hname : e.name = d.name) : e = d := by
  have hbytes : fs.read e.name = .ok d.bytes := hname ▸ read_of_mem_documents h hd
  rw [read_of_mem_documents h he] at hbytes
  cases d
  cases e
  rw [InputDocument.mk.injEq]
  exact ⟨hname, Except.ok.inj hbytes⟩

/-- The declarations of documents are an object with entries. -/
def HaveEntries [Query.Interpreter] (options : Options) (ds : List InputDocument) : Prop :=
  ∃ entries, declarations options ds = .object entries ∧ AreEntries options ds entries

/-- **Documents that are read have entries of their own.** -/
theorem Inputs.haveEntries_of_documents [Query.Interpreter] {fs : FileSystem}
    {inputs : List String} {ds : List InputDocument} (h : documents fs inputs = .ok ds)
    (options : Options) : HaveEntries options ds := by
  refine ⟨_, declarations_eq options ds, ?_, fun d hd ↦ ?_⟩
  · rw [Json.map_fst_ofMembers, map_fst_declarationMembers]
  · rw [Json.lookup_ofMembers]
    exact lookup_reverse_declarationMembers hd fun e he ↦ eq_of_mem_documents h hd he

end JsonEmbed
