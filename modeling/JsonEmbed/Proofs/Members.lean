import JsonEmbed.Assignment
import JsonEmbed.Declaration
import Mathlib.Data.List.Basic

/-!
# Walks over the members of an object

Declarations and assignments come from two walks over the same members, and the two read a value in
different ways: one asks for its tag, the other for its elements, its own members or its literal.
What both must agree on is which of four things a member is:

* an object, whose members are walked in turn;
* an array with an element tag;
* a scalar with a tag of its own;
* a value that is dropped.

`Json.membersInduction` is the induction over members with exactly these cases, and the equations
below say what each walk does in each of them. Every later argument about a walk rests on these and
never opens the definitions again.
-/

namespace JsonEmbed

namespace Json

/-! ### The four kinds of member -/

/-- An array has an element tag or is invalid as a whole. -/
theorem arrayTag_cases (xs : List Json) :
    (∃ t, arrayTag xs = .list t) ∨ arrayTag xs = .invalid := by
  match xs with
  | [] => exact Or.inl ⟨.undefined, rfl⟩
  | x :: xs =>
    rw [arrayTag]
    rcases x.scalarTag? with - | t
    · exact Or.inr rfl
    · by_cases h : xs.all (fun y ↦ y.scalarTag? == some t)
      · exact Or.inl ⟨t, if_pos h⟩
      · exact Or.inr (if_neg h)

/-- An array has an element tag if it is empty or all its elements are scalars of that tag. -/
theorem arrayTag_eq_list_iff {xs : List Json} {t : Tag} :
    arrayTag xs = .list t ↔
      xs = [] ∧ t = .undefined ∨ xs ≠ [] ∧ ∀ x ∈ xs, x.scalarTag? = some t := by
  match xs with
  | [] => simp [arrayTag, eq_comm]
  | x :: xs =>
    rw [arrayTag]
    rcases hx : x.scalarTag? with - | u
    · simp [hx]
    · by_cases h : xs.all (fun y ↦ y.scalarTag? == some u)
      · have hxs : ∀ y ∈ xs, y.scalarTag? = some u := by simpa using h
        simp only [if_pos h, Tag.list.injEq, List.mem_cons, forall_eq_or_imp, hx]
        grind
      · have hxs : ¬∀ y ∈ xs, y.scalarTag? = some u := by simpa using h
        simp only [if_neg h, List.mem_cons, forall_eq_or_imp, hx]
        grind

/-- A number is an integer or a fraction. -/
theorem numberTag_cases (n : Number) : n.tag = .int ∨ n.tag = .float := by
  rcases n with i | x
  · exact Or.inl rfl
  · by_cases h : x.IsIntegral
    · exact Or.inl (if_pos h)
    · exact Or.inr (if_neg h)

/-- What fills one slot by itself has a scalar tag. -/
theorem isScalar_of_scalarTag? {v : Json} {t : Tag} (h : v.scalarTag? = some t) :
    t.isScalar = true := by
  cases v with
  | number n =>
    obtain rfl : n.tag = t := Option.some.inj h
    rcases numberTag_cases n with hn | hn <;> rw [hn] <;> rfl
  | boolean b =>
    obtain rfl : Tag.boolean = t := Option.some.inj h
    rfl
  | string s =>
    obtain rfl : Tag.string = t := Option.some.inj h
    rfl
  | null | array | object => simp [scalarTag?] at h

/-- The tag that a scalar has as a value. -/
theorem tag_of_scalarTag? {v : Json} {t : Tag} (h : v.scalarTag? = some t) : v.tag = t := by
  cases v <;> simp_all [scalarTag?, tag]

/-- A scalar is not dropped. -/
theorem tag_ne_invalid_of_scalarTag? {v : Json} {t : Tag} (h : v.scalarTag? = some t) :
    v.tag ≠ .invalid := by
  rw [tag_of_scalarTag? h]
  rintro rfl
  exact absurd (isScalar_of_scalarTag? h) (by decide)

/-- A scalar is no object. -/
theorem ne_object_of_scalarTag? {v : Json} {t : Tag} (h : v.scalarTag? = some t)
    (ms : List (String × Json)) : v ≠ object ms := by
  rintro rfl
  simp [scalarTag?] at h

/-- What is dropped is no object. -/
theorem ne_object_of_tag_invalid {v : Json} (h : v.tag = .invalid)
    (ms : List (String × Json)) : v ≠ object ms := by
  rintro rfl
  simp [tag] at h

/-- What is dropped is no scalar. -/
theorem scalarTag?_of_tag_invalid {v : Json} (h : v.tag = .invalid) : v.scalarTag? = none := by
  rcases hv : v.scalarTag? with - | t
  · rfl
  · exact absurd h (tag_ne_invalid_of_scalarTag? hv)

/-- Induction over the members of an object, by what the first member is. The members of a nested
object are covered by an induction hypothesis of their own. -/
@[elab_as_elim]
theorem membersInduction {motive : List (String × Json) → Prop} (nil : motive [])
    (object : ∀ key ms rest, motive ms → motive rest → motive ((key, .object ms) :: rest))
    (array : ∀ key xs t rest, arrayTag xs = .list t → motive rest →
      motive ((key, .array xs) :: rest))
    (scalar : ∀ key v t rest, v.scalarTag? = some t → motive rest → motive ((key, v) :: rest))
    (dropped : ∀ key v rest, v.tag = .invalid → motive rest → motive ((key, v) :: rest)) :
    ∀ ms, motive ms
  | [] => nil
  | (key, .object ms) :: rest =>
    object key ms rest (membersInduction nil object array scalar dropped ms)
      (membersInduction nil object array scalar dropped rest)
  | (key, .array xs) :: rest => by
    have ih := membersInduction nil object array scalar dropped rest
    -- an array whose elements have no common tag is dropped as a whole
    rcases arrayTag_cases xs with ⟨t, h⟩ | h
    · exact array key xs t rest h ih
    · exact dropped key _ rest h ih
  | (key, .null) :: rest =>
    dropped key _ rest rfl (membersInduction nil object array scalar dropped rest)
  | (key, .boolean b) :: rest =>
    scalar key _ _ rest rfl (membersInduction nil object array scalar dropped rest)
  | (key, .number n) :: rest =>
    scalar key _ _ rest rfl (membersInduction nil object array scalar dropped rest)
  | (key, .string s) :: rest =>
    scalar key _ _ rest rfl (membersInduction nil object array scalar dropped rest)

end Json

/-! ### What is declared for a member -/

namespace Member

/-- Induction over declared members, by what the first one is. -/
@[elab_as_elim]
theorem listInduction {motive : List Member → Prop} (nil : motive [])
    (scalar : ∀ n t rest, motive rest → motive (.scalar n t :: rest))
    (array : ∀ n t length rest, motive rest → motive (.array n t length :: rest))
    (nested : ∀ n t kind blockName ms rest, motive ms → motive rest →
      motive (.nested n t kind blockName ms :: rest)) :
    ∀ ms, motive ms
  | [] => nil
  | .scalar n t :: rest => scalar n t rest (listInduction nil scalar array nested rest)
  | .array n t length :: rest =>
    array n t length rest (listInduction nil scalar array nested rest)
  | .nested n t kind blockName ms :: rest =>
    nested n t kind blockName ms rest (listInduction nil scalar array nested ms)
      (listInduction nil scalar array nested rest)

section

variable (below : BlockKind) (key : String) (rest : List (String × Json))

/-- The members declared for the members of an object. -/
abbrev ofMembers (ms : List (String × Json)) : List Member :=
  ofJson?.ofMembers below ms

/-- An object is declared as a block that is named like its member. -/
theorem ofMembers_object (ms : List (String × Json)) :
    ofMembers below ((key, .object ms) :: rest) =
      nested (C.identifier key) .object below (C.identifier key) (ofMembers below ms) ::
        ofMembers below rest :=
  rfl

/-- An array is declared with its length. -/
theorem ofMembers_array {xs : List Json} {t : Tag} (h : Json.arrayTag xs = .list t) :
    ofMembers below ((key, .array xs) :: rest) =
      array (C.identifier key) (.list t) xs.length :: ofMembers below rest := by
  rw [ofMembers, ofJson?.ofMembers, ofJson?, h]

/-- A scalar is declared with its tag. -/
theorem ofMembers_scalar {v : Json} {t : Tag} (h : v.scalarTag? = some t) :
    ofMembers below ((key, v) :: rest) =
      scalar (C.identifier key) t :: ofMembers below rest := by
  have hv : ofJson? below key v = v.scalarTag?.map (scalar (C.identifier key)) := by
    cases v with
    | null | array | object => simp [Json.scalarTag?] at h
    | boolean | number | string => rfl
  rw [ofMembers, ofJson?.ofMembers, hv, h]
  rfl

/-- A dropped value is not declared. -/
theorem ofMembers_dropped {v : Json} (h : v.tag = .invalid) :
    ofMembers below ((key, v) :: rest) = ofMembers below rest := by
  have hv : ofJson? below key v = none := by
    cases v with
    | object => exact absurd h (by simp [Json.tag])
    | array xs => rw [ofJson?, show Json.arrayTag xs = .invalid from h]
    | null => rfl
    | boolean | number | string =>
      exact Option.map_eq_none_iff.2 (Json.scalarTag?_of_tag_invalid h)
  rw [ofMembers, ofJson?.ofMembers, hv]

end

end Member

/-! ### What is assigned for a member -/

namespace Assignment

variable (mode : ArrayInitializer) (path key : String) (rest : List (String × Json))

/-- The slots of an object are assigned below the path of its member. -/
theorem ofMembers_object (ms : List (String × Json)) :
    ofMembers mode path ((key, .object ms) :: rest) =
      ofMembers mode (memberPath path key) ms ++ ofMembers mode path rest :=
  rfl

/-- The elements of an array are assigned in order. -/
theorem ofMembers_array {xs : List Json} {t : Tag} (h : Json.arrayTag xs = .list t) :
    ofMembers mode path ((key, .array xs) :: rest) =
      ofElements mode (memberPath path key) 0 xs ++ ofMembers mode path rest := by
  rw [ofMembers, ofJson.ofMembers, ofJson, h]
  rfl

/-- A scalar is assigned to its own slot. -/
theorem ofMembers_scalar {v : Json} {t : Tag} (h : v.scalarTag? = some t) :
    ofMembers mode path ((key, v) :: rest) =
      ⟨memberPath path key, .ofJson v⟩ :: ofMembers mode path rest := by
  have hv := Json.tag_ne_invalid_of_scalarTag? h
  cases v with
  | null | array | object => simp [Json.scalarTag?] at h
  | boolean | string => rfl
  | number n =>
    rw [ofMembers, ofJson.ofMembers, ofJson]
    · split
      · contradiction
      · rfl
    · simp
    · simp

/-- A dropped value is not assigned. -/
theorem ofMembers_dropped {v : Json} (h : v.tag = .invalid) :
    ofMembers mode path ((key, v) :: rest) = ofMembers mode path rest := by
  cases v with
  | object | boolean | string => exact absurd h (by simp [Json.tag])
  | null => rfl
  | array xs => rw [ofMembers, ofJson.ofMembers, ofJson, show Json.arrayTag xs = _ from h]; rfl
  | number n =>
    rcases Json.numberTag_cases n with hn | hn <;> simp [Json.tag, hn] at h

end Assignment

end JsonEmbed
