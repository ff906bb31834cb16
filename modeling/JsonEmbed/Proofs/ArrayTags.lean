import JsonEmbed.Proofs.Members

/-!
# Tags of arrays

The tag of an array is found by looking at its first element: if that is a scalar, the others are
compared with it (`Json.tag_array_cons`). Nothing of this order is left in the result. An array has
an element tag exactly when all its elements have it, or when there are none, and
`Json.HaveElementTag` says so without a first element. What follows from that is said once, for two
arrays that have the same element tags (`Json.tag_array_congr`): the order of the elements plays no
part. And since an element tag is a scalar one or `undefined`, no array is tagged inside another.
-/

namespace JsonEmbed

namespace Json

/-! ### Scalars among the elements -/

/-- What fills one slot by itself is what has a scalar tag. -/
theorem scalarTag?_eq_some_iff {v : Json} {t : Tag} :
    v.scalarTag? = some t ↔ v.tag = t ∧ t.isScalar = true := by
  refine ⟨fun h ↦ ⟨tag_of_scalarTag? h, isScalar_of_scalarTag? h⟩, ?_⟩
  rintro ⟨rfl, hscalar⟩
  cases v with
  | boolean | number | string => rfl
  | null | object => exact absurd hscalar Bool.false_ne_true
  | array xs =>
    rcases arrayTag_cases xs with ⟨t, h⟩ | h
    all_goals
      rw [tag, h] at hscalar
      exact absurd hscalar Bool.false_ne_true

/-- An array that begins with a scalar has its tag if all others have it, and no array that begins
with anything else has a tag. -/
theorem tag_array_cons (x : Json) (xs : List Json) :
    (array (x :: xs)).tag =
      if x.tag.isScalar = true ∧ ∀ y ∈ xs, y.tag = x.tag then .list x.tag else .invalid := by
  rw [tag, arrayTag]
  rcases hx : x.scalarTag? with - | t
  · have hscalar : ¬x.tag.isScalar = true := by
      intro h
      exact Option.some_ne_none _ ((scalarTag?_eq_some_iff.2 ⟨rfl, h⟩).symm.trans hx)
    rw [if_neg fun h ↦ hscalar h.1]
  · obtain ⟨rfl, hscalar⟩ := scalarTag?_eq_some_iff.1 hx
    have hothers : xs.all (fun y ↦ y.scalarTag? == some x.tag) = true ↔
        ∀ y ∈ xs, y.tag = x.tag := by
      simp only [List.all_eq_true, beq_iff_eq, scalarTag?_eq_some_iff, hscalar, and_true]
    simp only [hothers, hscalar, true_and]

/-! ### Element tags without a first element -/

/-- The elements of an array have an element tag: the array is empty and the tag is `undefined`, or
it is not and they all have this tag, which is that of a scalar. -/
def HaveElementTag (xs : List Json) (t : Tag) : Prop :=
  xs = [] ∧ t = .undefined ∨
    xs ≠ [] ∧ t ∈ [Tag.int, .float, .string, .boolean] ∧ ∀ x ∈ xs, x.tag = t

theorem mem_scalarTags_iff {t : Tag} :
    t ∈ [Tag.int, .float, .string, .boolean] ↔ t.isScalar = true := by
  cases t <;> simp [Tag.isScalar]

/-- An array has the element tag that its elements have. -/
theorem tag_array_eq_list_iff {xs : List Json} {t : Tag} :
    (array xs).tag = .list t ↔ HaveElementTag xs t := by
  cases xs with
  | nil =>
    have hnil : (array []).tag = .list .undefined := rfl
    simp [hnil, HaveElementTag, eq_comm]
  | cons x xs =>
    rw [tag_array_cons]
    refine ⟨fun h ↦ ?_, ?_⟩
    · split at h
      · next hall =>
        obtain rfl := Tag.list.inj h
        exact Or.inr ⟨List.cons_ne_nil x xs, mem_scalarTags_iff.2 hall.1,
          List.forall_mem_cons.2 ⟨rfl, hall.2⟩⟩
      · exact Tag.noConfusion h
    · rintro (⟨hnil, -⟩ | ⟨-, ht, hall⟩)
      · exact absurd hnil (List.cons_ne_nil x xs)
      · obtain ⟨rfl, hall⟩ := List.forall_mem_cons.1 hall
        exact if_pos ⟨mem_scalarTags_iff.1 ht, hall⟩

theorem tag_eq_list_iff {v : Json} {t : Tag} :
    v.tag = .list t ↔ ∃ xs, v = array xs ∧ HaveElementTag xs t := by
  refine ⟨fun h ↦ ?_, ?_⟩
  · cases v with
    | array xs => exact ⟨xs, rfl, tag_array_eq_list_iff.1 h⟩
    | number n => rcases numberTag_cases n with hn | hn <;> exact absurd (hn.symm.trans h) (by simp)
    | null | boolean | string | object => exact absurd h (by simp [tag])
  · rintro ⟨xs, rfl, h⟩
    exact tag_array_eq_list_iff.2 h

/-- Arrays that have the same element tags, or none both, have one tag. -/
theorem tag_array_congr {xs ys : List Json}
    (h : ∀ t, HaveElementTag xs t ↔ HaveElementTag ys t) : (array xs).tag = (array ys).tag := by
  have hiff : ∀ t, (array xs).tag = .list t ↔ (array ys).tag = .list t := by
    intro t
    rw [tag_array_eq_list_iff, tag_array_eq_list_iff, h t]
  rcases arrayTag_cases xs with ⟨t, ht⟩ | hinvalid
  · exact ((hiff t).1 ht).symm ▸ ht
  · rcases arrayTag_cases ys with ⟨t, ht⟩ | hinvalid'
    · exact ((hiff t).2 ht).trans ht.symm
    · exact hinvalid.trans hinvalid'.symm

/-! ### What follows for arrays -/

theorem HaveElementTag.perm {xs ys : List Json} {t : Tag} (hperm : xs.Perm ys)
    (h : HaveElementTag xs t) : HaveElementTag ys t := by
  rcases h with ⟨rfl, ht⟩ | ⟨hne, ht, hall⟩
  · exact Or.inl ⟨hperm.nil_eq.symm, ht⟩
  · refine Or.inr ⟨fun hnil ↦ hne ?_, ht, fun y hy ↦ hall y (hperm.mem_iff.2 hy)⟩
    exact (hnil ▸ hperm).eq_nil

/-- Some of the elements have the element tag of all of them. -/
theorem HaveElementTag.of_subset {xs ys : List Json} {t : Tag} (hne : ys ≠ []) (hsub : ys ⊆ xs)
    (h : HaveElementTag xs t) : HaveElementTag ys t := by
  rcases h with ⟨rfl, -⟩ | ⟨-, ht, hall⟩
  · exact absurd (List.subset_nil.1 hsub) hne
  · exact Or.inr ⟨hne, ht, fun y hy ↦ hall y (hsub hy)⟩

theorem HaveElementTag.isElement {xs : List Json} {t : Tag} (h : HaveElementTag xs t) :
    t = .undefined ∨ t.isScalar = true := by
  rcases h with ⟨-, ht⟩ | ⟨-, ht, -⟩
  · exact Or.inl ht
  · exact Or.inr (mem_scalarTags_iff.1 ht)

theorem haveElementTag_undefined_iff {xs : List Json} :
    HaveElementTag xs .undefined ↔ xs = [] := by
  simp [HaveElementTag]

/-- No value has the tag of the elements of an empty array. -/
theorem tag_ne_undefined (v : Json) : v.tag ≠ .undefined := by
  cases v with
  | array xs => rcases arrayTag_cases xs with ⟨t, h⟩ | h <;> simp [tag, h]
  | number n => rcases numberTag_cases n with hn | hn <;> simp [tag, hn]
  | null | boolean | string | object => simp [tag]

/-- **Arrays are tagged as a whole, whatever their order.** A value has the tag of an array exactly
when it is an array whose elements have this element tag, and any other array is invalid. So the
order of the elements plays no part, and any of them, as long as there are some, make an array of
the same tag. No array is tagged inside another, and `undefined` is the element tag of the empty
array and no tag of anything else. -/
theorem arrays_tagged_as_a_whole :
    (∀ (v : Json) (t : Tag), v.tag = .list t ↔ ∃ xs, v = array xs ∧ HaveElementTag xs t) ∧
      (∀ xs : List Json, (¬∃ t, HaveElementTag xs t) → (array xs).tag = .invalid) ∧
      (∀ xs ys : List Json, xs.Perm ys → (array xs).tag = (array ys).tag) ∧
      (∀ (xs ys : List Json) (t : Tag), ys ≠ [] → ys ⊆ xs → (array xs).tag = .list t →
        (array ys).tag = .list t) ∧
      (∀ (v : Json) (t : Tag), v.tag ≠ .list (.list t)) ∧
      ∀ v : Json, v.tag ≠ .undefined ∧ (v.tag = .list .undefined ↔ v = array []) := by
  refine ⟨fun v t ↦ tag_eq_list_iff, fun xs h ↦ ?_, fun xs ys hperm ↦ ?_,
    fun xs ys t hne hsub h ↦ ?_, fun v t h ↦ ?_, fun v ↦ ⟨tag_ne_undefined v, ?_⟩⟩
  · rcases arrayTag_cases xs with ⟨t, ht⟩ | hinvalid
    · exact absurd ⟨t, tag_array_eq_list_iff.1 ht⟩ h
    · exact hinvalid
  · exact tag_array_congr fun t ↦ ⟨.perm hperm, .perm hperm.symm⟩
  · exact tag_array_eq_list_iff.2 ((tag_array_eq_list_iff.1 h).of_subset hne hsub)
  · obtain ⟨xs, -, helement⟩ := tag_eq_list_iff.1 h
    rcases helement.isElement with hundefined | hscalar
    · exact Tag.noConfusion hundefined
    · exact absurd hscalar Bool.false_ne_true
  · rw [tag_eq_list_iff]
    simp only [haveElementTag_undefined_iff]
    exact ⟨fun ⟨_, hv, hnil⟩ ↦ hnil ▸ hv, fun hv ↦ ⟨[], hv, rfl⟩⟩

/-- Integers and fractions that are integers go together in any order, and a null among them makes
the array invalid. -/
example :
    let one : Json := .number (.integer 1)
    let two : Json := .number (.double (.ofInt 2))
    (array [one, two]).tag = .list .int ∧ (array [two, one]).tag = .list .int ∧
      (array [one, null, two]).tag = .invalid := by
  decide +kernel

end Json

end JsonEmbed
