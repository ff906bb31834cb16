import JsonEmbed.Proofs.Members

/-!
# What a program keeps of a document

A program keeps of an object, in order, the identifiers of the keys whose values are not dropped,
and of each value its tag with its literal, its element tag with the literals of its elements, or
what it keeps of a nested object. `Json.contents` is this list.

Nothing else has a part in the program: both walks over the members factor through the contents.
The declaration is that of the contents (`ofMembers_eq_members`), and the values that are assigned,
when array elements are set to their values, are the literals of the contents in order
(`map_value_ofMembers`).
-/

namespace JsonEmbed

/-! ### Contents -/

/-- What a program keeps of a value. -/
inductive Content where
  | scalar (tag : Tag) (value : Literal)
  | array (element : Tag) (values : List Literal)
  | object (members : List (String × Content))
  deriving Inhabited

namespace Json

/-- The tag that an array has for its elements. -/
def elementTag (xs : List Json) : Tag :=
  match arrayTag xs with
  | .list t => t
  | t => t

/-- What a program keeps of a value that is not dropped. -/
def content : Json → Content
  | object ms => .object (contentsOf ms)
  | array xs => .array (elementTag xs) (xs.map Literal.ofJson)
  | v => .scalar v.tag (.ofJson v)
where
  /-- What a program keeps of the members of an object. -/
  contentsOf : List (String × Json) → List (String × Content)
    | [] => []
    | (key, v) :: rest =>
      if v.tag = .invalid then contentsOf rest
      else (C.identifier key, v.content) :: contentsOf rest

/-- What a program keeps of a document. One that is no object counts as an empty object. -/
def contents (v : Json) : List (String × Content) :=
  content.contentsOf v.members

section Equations

variable (key : String) (rest : List (String × Json))

theorem contentsOf_object (ms : List (String × Json)) :
    content.contentsOf ((key, .object ms) :: rest) =
      (C.identifier key, .object (content.contentsOf ms)) :: content.contentsOf rest :=
  rfl

theorem contentsOf_array {xs : List Json} {t : Tag} (h : arrayTag xs = .list t) :
    content.contentsOf ((key, .array xs) :: rest) =
      (C.identifier key, .array t (xs.map Literal.ofJson)) :: content.contentsOf rest := by
  rw [content.contentsOf, if_neg (by rw [tag, h]; exact Tag.noConfusion), content, elementTag, h]

theorem contentsOf_scalar {v : Json} {t : Tag} (h : v.scalarTag? = some t) :
    content.contentsOf ((key, v) :: rest) =
      (C.identifier key, .scalar t (.ofJson v)) :: content.contentsOf rest := by
  have hv : v.content = .scalar v.tag (.ofJson v) := by
    cases v with
    | null | array | object => simp [scalarTag?] at h
    | boolean | number | string => rfl
  rw [content.contentsOf, if_neg (tag_ne_invalid_of_scalarTag? h), hv, tag_of_scalarTag? h]

theorem contentsOf_dropped {v : Json} (h : v.tag = .invalid) :
    content.contentsOf ((key, v) :: rest) = content.contentsOf rest := by
  rw [content.contentsOf, if_pos h]

end Equations

end Json

namespace Content

/-- Induction over contents, by what the first one is. -/
@[elab_as_elim]
theorem listInduction {motive : List (String × Content) → Prop} (nil : motive [])
    (scalar : ∀ n t l rest, motive rest → motive ((n, .scalar t l) :: rest))
    (array : ∀ n t ls rest, motive rest → motive ((n, .array t ls) :: rest))
    (object : ∀ n cs rest, motive cs → motive rest → motive ((n, .object cs) :: rest)) :
    ∀ cs, motive cs
  | [] => nil
  | (n, .scalar t l) :: rest => scalar n t l rest (listInduction nil scalar array object rest)
  | (n, .array t ls) :: rest => array n t ls rest (listInduction nil scalar array object rest)
  | (n, .object cs) :: rest =>
    object n cs rest (listInduction nil scalar array object cs)
      (listInduction nil scalar array object rest)

/-! ### Both walks factor through the contents -/

/-- The member that declares a content. -/
def member (below : BlockKind) (n : String) : Content → Member
  | scalar t _ => .scalar n t
  | array t ls => .array n (.list t) ls.length
  | object cs => .nested n .object below n (membersOf below cs)
where
  /-- The members that declare several contents. -/
  membersOf (below : BlockKind) : List (String × Content) → List Member
    | [] => []
    | (n, c) :: rest => c.member below n :: membersOf below rest

/-- The literals of a content, in the order in which they are assigned. -/
def literals : Content → List Literal
  | scalar _ l => [l]
  | array _ ls => ls
  | object cs => literalsOf cs
where
  /-- The literals of several contents. -/
  literalsOf : List (String × Content) → List Literal
    | [] => []
    | (_, c) :: rest => c.literals ++ literalsOf rest

/-- The declaration of an object is that of its contents. -/
theorem ofMembers_eq_members (below : BlockKind) (ms : List (String × Json)) :
    Member.ofMembers below ms = member.membersOf below (Json.content.contentsOf ms) := by
  induction ms using Json.membersInduction with
  | nil => rfl
  | object key ms rest ih ihrest =>
    rw [Member.ofMembers_object, Json.contentsOf_object, ih, ihrest]
    rfl
  | array key xs t rest h ih =>
    rw [Member.ofMembers_array _ _ _ h, Json.contentsOf_array _ _ h, ih, member.membersOf, member,
      List.length_map]
  | scalar key v t rest h ih =>
    rw [Member.ofMembers_scalar _ _ _ h, Json.contentsOf_scalar _ _ h, ih]
    rfl
  | dropped key v rest h ih =>
    rw [Member.ofMembers_dropped _ _ _ h, Json.contentsOf_dropped _ _ h, ih]

/-- Elements are set to their values. -/
theorem map_value_ofElements (path : String) (i : Nat) (xs : List Json) :
    (Assignment.ofElements .values path i xs).map Assignment.value = xs.map Literal.ofJson := by
  induction xs generalizing i with
  | nil => rfl
  | cons x xs ih =>
    rw [Assignment.ofElements, List.map_cons, ih]
    rfl

/-- The values assigned for an object are the literals of its contents. -/
theorem map_value_ofMembers (path : String) (ms : List (String × Json)) :
    (Assignment.ofMembers .values path ms).map Assignment.value =
      literals.literalsOf (Json.content.contentsOf ms) := by
  induction ms using Json.membersInduction generalizing path with
  | nil => rfl
  | object key ms rest ih ihrest =>
    rw [Assignment.ofMembers_object, Json.contentsOf_object, List.map_append, ih, ihrest]
    rfl
  | array key xs t rest h ih =>
    rw [Assignment.ofMembers_array _ _ _ _ h, Json.contentsOf_array _ _ h, List.map_append, ih,
      map_value_ofElements]
    rfl
  | scalar key v t rest h ih =>
    rw [Assignment.ofMembers_scalar _ _ _ _ h, Json.contentsOf_scalar _ _ h, List.map_cons, ih]
    rfl
  | dropped key v rest h ih =>
    rw [Assignment.ofMembers_dropped _ _ _ _ h, Json.contentsOf_dropped _ _ h, ih]

end Content

end JsonEmbed
