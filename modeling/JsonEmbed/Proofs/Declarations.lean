import JsonEmbed.Proofs.Identifiers
import JsonEmbed.Proofs.Members

/-!
# Declarations and their text

What is declared for an object has a shape that only documents can give it: names that are
identifiers, scalar tags for scalar members, element tags for arrays, and nested blocks that close
with the name of their member. `Member.WellFormed` is this shape.

A declaration of this shape can be told from its text. Every line of a block begins with tabs and a
word, and what follows the word says what kind of member it is: a name ends in a semicolon or in a
bracket, and a brace follows no name. So the text of a block says where it ends. That is what the
induction needs, and `lines_append_inj` states it with whatever lines come after.
-/

namespace JsonEmbed

namespace Tag

/-- The tags that elements of an array have. -/
def isElement (t : Tag) : Bool :=
  t.isScalar || t == undefined

theorem isElement_iff {t : Tag} :
    t.isElement = true ↔ t ∈ [int, float, string, boolean, undefined] := by
  cases t <;> simp [isElement, isScalar]

/-- Elements of different tags have different types. -/
theorem eq_of_cType_eq {s t : Tag} (hs : s.isElement = true) (ht : t.isElement = true)
    (h : s.cType = t.cType) : s = t := by
  have hall : ∀ s ∈ [int, float, string, boolean, undefined],
      ∀ t ∈ [int, float, string, boolean, undefined], s.cType = t.cType → s = t := by
    decide
  exact hall s (isElement_iff.1 hs) t (isElement_iff.1 ht) h

theorem isElement_of_isScalar {t : Tag} (h : t.isScalar = true) : t.isElement = true := by
  rw [isElement, h, Bool.true_or]

/-- The tag of an array is that of an element. -/
theorem isElement_of_arrayTag {xs : List Json} {t : Tag} (h : Json.arrayTag xs = .list t) :
    t.isElement = true := by
  rcases Json.arrayTag_eq_list_iff.1 h with ⟨-, rfl⟩ | ⟨hne, hall⟩
  · rfl
  · obtain ⟨x, hx⟩ := List.exists_mem_of_ne_nil xs hne
    exact isElement_of_isScalar (Json.isScalar_of_scalarTag? (hall x hx))

/-- Types hold no space. -/
theorem space_not_mem_cType (t : Tag) : ' ' ∉ t.cType.toList := by
  cases t with
  | list e => exact show ' ' ∉ "void*".toList by decide
  | _ => decide

theorem space_not_mem_elementType (t : Tag) : ' ' ∉ t.elementType.toList := by
  cases t with
  | list e => exact space_not_mem_cType e
  | _ => decide

end Tag

namespace Member

/-! ### The shape of a declaration -/

/-- A declared member: its name, its tag and its layout belong together, and blocks are of the
given kind. -/
def WellFormed (below : BlockKind) : Member → Prop
  | scalar n t => C.IsName n ∧ t.isScalar = true
  | array n t length =>
    C.IsName n ∧ ∃ e : Tag, t = .list e ∧ e.isElement = true ∧ (length = 0 ↔ e = .undefined)
  | nested n t kind blockName ms =>
    C.IsName n ∧ t = .object ∧ kind = below ∧ blockName = n ∧ allWellFormed below ms
where
  /-- Several declared members. -/
  allWellFormed (below : BlockKind) : List Member → Prop
    | [] => True
    | m :: ms => m.WellFormed below ∧ allWellFormed below ms

/-- What is declared for members is well-formed. -/
theorem allWellFormed_ofMembers (below : BlockKind) (ms : List (String × Json)) :
    WellFormed.allWellFormed below (ofMembers below ms) := by
  induction ms using Json.membersInduction with
  | nil => trivial
  | object key ms rest ih ihrest =>
    rw [ofMembers_object]
    exact ⟨⟨C.isName_identifier key, rfl, rfl, rfl, ih⟩, ihrest⟩
  | array key xs t rest h ih =>
    rw [ofMembers_array _ _ _ h]
    refine ⟨⟨C.isName_identifier key, t, rfl, Tag.isElement_of_arrayTag h, ?_⟩, ih⟩
    rw [List.length_eq_zero_iff]
    rcases Json.arrayTag_eq_list_iff.1 h with ⟨rfl, rfl⟩ | ⟨hne, hall⟩
    · exact ⟨fun _ ↦ rfl, fun _ ↦ rfl⟩
    · obtain ⟨x, hx⟩ := List.exists_mem_of_ne_nil xs hne
      have ht := Json.isScalar_of_scalarTag? (hall x hx)
      exact ⟨fun hnil ↦ absurd hnil hne, fun hu ↦ absurd ht (hu ▸ by decide)⟩
  | scalar key v t rest h ih =>
    rw [ofMembers_scalar _ _ _ h]
    exact ⟨⟨C.isName_identifier key, Json.isScalar_of_scalarTag? h⟩, ih⟩
  | dropped key v rest h ih =>
    rw [ofMembers_dropped _ _ _ h]
    exact ih

/-! ### The first line of a member -/

/-- The word that the first line of a member begins with. -/
def word : Member → String
  | scalar _ t => t.cType
  | array _ t _ => t.elementType
  | nested _ _ kind _ _ => kind.keyword

/-- What follows the word: a name, if there is one, the mark that ends it, and the rest. -/
def heading : Member → String × Char × String
  | scalar n _ => (n, ';', "")
  | array n _ length => (n, '[', Nat.repr length ++ "];")
  | nested _ _ _ _ _ => ("", '\x7b', "")

/-- The line that closes a block. -/
def closing (level : Nat) (name : String) : String :=
  tabs level ++ "\x7d " ++ name ++ ";"

/-- The lines of a member after the first. -/
def innerLines (level : Nat) : Member → List String
  | scalar _ _ | array _ _ _ => []
  | nested _ _ _ blockName ms => lines.linesOfAll (level + 1) ms ++ [closing level blockName]

/-- The first line of a member. -/
def firstLine (level : Nat) (m : Member) : String :=
  tabs level ++ m.word ++ " " ++ m.heading.1 ++ String.singleton m.heading.2.1 ++ m.heading.2.2

theorem lines_eq (level : Nat) (m : Member) :
    m.lines level = m.firstLine level :: m.innerLines level := by
  cases m with
  | scalar n t => simp [lines, firstLine, innerLines, word, heading, String.append_assoc]
  | array n t length => simp [lines, firstLine, innerLines, word, heading, String.append_assoc]
  | nested n t kind blockName ms =>
    simp [lines, firstLine, innerLines, word, heading, closing, String.append_assoc]

theorem linesOfAll_cons (level : Nat) (m : Member) (ms : List Member) :
    lines.linesOfAll level (m :: ms) =
      m.firstLine level :: (m.innerLines level ++ lines.linesOfAll level ms) := by
  rw [lines.linesOfAll, lines_eq, List.cons_append]

/-- The first line as a word and what follows it. -/
theorem toList_firstLine (level : Nat) (m : Member) :
    (m.firstLine level).toList = List.replicate level '\t' ++ (m.word.toList ++
      ' ' :: (m.heading.1.toList ++ m.heading.2.1 :: m.heading.2.2.toList)) := by
  simp [firstLine, tabs]

theorem space_not_mem_word (m : Member) : ' ' ∉ m.word.toList := by
  cases m with
  | scalar n t => exact t.space_not_mem_cType
  | array n t length => exact t.space_not_mem_elementType
  | nested n t kind blockName ms =>
    cases kind with
    | struct => exact show ' ' ∉ "struct".toList by decide
    | union => exact show ' ' ∉ "union".toList by decide

theorem isName_heading {below : BlockKind} {m : Member} (h : m.WellFormed below) :
    C.IsName m.heading.1 := by
  cases m with
  | scalar n t => exact h.1
  | array n t length => exact h.1
  | nested n t kind blockName ms => exact fun c hc ↦ absurd hc List.not_mem_nil

theorem isIdentifierChar_heading (m : Member) : C.isIdentifierChar m.heading.2.1 = false := by
  cases m <;> rfl

/-- The word and the heading of a member can be told from its first line. -/
theorem eq_of_firstLine_eq {below : BlockKind} {level : Nat} {m n : Member}
    (hm : m.WellFormed below) (hn : n.WellFormed below)
    (h : m.firstLine level = n.firstLine level) : m.word = n.word ∧ m.heading = n.heading := by
  have hc := congrArg String.toList h
  rw [toList_firstLine, toList_firstLine] at hc
  obtain ⟨hword, -, hafter⟩ := eq_of_append_delimiter (p := (· ≠ ' '))
    (fun c hc hs ↦ m.space_not_mem_word (hs ▸ hc)) (fun c hc hs ↦ n.space_not_mem_word (hs ▸ hc))
    (by simp) (by simp) (List.append_cancel_left hc)
  obtain ⟨hname, hmark, hrest⟩ := C.eq_of_name_append (isName_heading hm) (isName_heading hn)
    m.isIdentifierChar_heading n.isIdentifierChar_heading hafter
  exact ⟨String.toList_inj.1 hword, Prod.ext hname (Prod.ext hmark (String.toList_inj.1 hrest))⟩

/-- No member begins with the line that closes the block around it. -/
theorem closing_ne_firstLine (level : Nat) (name : String) (m : Member) :
    closing level name ≠ m.firstLine (level + 1) := by
  intro h
  have hc := congrArg String.toList h
  rw [toList_firstLine, List.replicate_succ', List.append_assoc, closing, String.append_assoc,
    String.append_assoc, String.toList_append, tabs, String.toList_ofList] at hc
  have hhead := congrArg List.head? (List.append_cancel_left hc)
  rw [String.toList_append] at hhead
  exact absurd (Option.some.inj hhead) (by decide)

/-- The name of a block can be told from its last line. -/
theorem eq_of_closing_eq {level : Nat} {a b : String} (h : closing level a = closing level b) :
    a = b := by
  have hc := congrArg String.toList h
  simp only [closing, String.toList_append, List.append_assoc] at hc
  exact String.toList_inj.1
    (List.append_cancel_right (List.append_cancel_left (List.append_cancel_left hc)))

/-! ### Declarations read back -/

/-- Two texts that begin with members agree on the first line, and then go on alike. -/
theorem eq_of_linesOfAll_cons {below : BlockKind} {level : Nat} {m n : Member}
    {ms ns : List Member} {r s : List String} (hm : m.WellFormed below) (hn : n.WellFormed below)
    (h : lines.linesOfAll level (m :: ms) ++ r = lines.linesOfAll level (n :: ns) ++ s) :
    m.word = n.word ∧ m.heading = n.heading ∧
      m.innerLines level ++ (lines.linesOfAll level ms ++ r) =
        n.innerLines level ++ (lines.linesOfAll level ns ++ s) := by
  rw [linesOfAll_cons, linesOfAll_cons, List.cons_append, List.cons_append, List.append_assoc,
    List.append_assoc] at h
  obtain ⟨hfirst, hinner⟩ := List.cons.inj h
  obtain ⟨hword, hheading⟩ := eq_of_firstLine_eq hm hn hfirst
  exact ⟨hword, hheading, hinner⟩

/-- The text of a block does not begin with the line that closes it unless it has no members. -/
theorem closing_ne_linesOfAll_cons (level : Nat) (name : String) (m : Member) (ms : List Member)
    (r s : List String) :
    closing level name :: r ≠ lines.linesOfAll (level + 1) (m :: ms) ++ s := by
  rw [linesOfAll_cons]
  exact fun h ↦ closing_ne_firstLine level name m (List.cons.inj h).1

/-- **The lines of a block say what is declared and where the block ends**, whatever follows. -/
theorem linesOfAll_append_inj {below : BlockKind} {level : Nat} {ms ns : List Member}
    (hms : WellFormed.allWellFormed below ms) (hns : WellFormed.allWellFormed below ns)
    {a b : String} {r s : List String}
    (h : lines.linesOfAll (level + 1) ms ++ closing level a :: r =
      lines.linesOfAll (level + 1) ns ++ closing level b :: s) :
    ms = ns ∧ a = b ∧ r = s := by
  induction ms using listInduction generalizing level ns a b r s with
  | nil =>
    rcases ns with - | ⟨m, ns⟩
    · obtain ⟨hclose, hrest⟩ := List.cons.inj h
      exact ⟨rfl, eq_of_closing_eq hclose, hrest⟩
    · exact absurd h (closing_ne_linesOfAll_cons level a m ns r _)
  | scalar n t rest ih =>
    rcases ns with - | ⟨m, ns⟩
    · exact absurd h.symm (closing_ne_linesOfAll_cons level b _ rest s _)
    obtain ⟨hword, hheading, hinner⟩ := eq_of_linesOfAll_cons hms.1 hns.1 h
    cases m with
    | scalar n' t' =>
      obtain rfl : n = n' := congrArg Prod.fst hheading
      obtain rfl : t = t' := Tag.eq_of_cType_eq (Tag.isElement_of_isScalar hms.1.2)
        (Tag.isElement_of_isScalar hns.1.2) hword
      obtain ⟨rfl, hrest⟩ := ih hms.2 hns.2 hinner
      exact ⟨rfl, hrest⟩
    | array | nested => simp [heading] at hheading
  | array n t length rest ih =>
    rcases ns with - | ⟨m, ns⟩
    · exact absurd h.symm (closing_ne_linesOfAll_cons level b _ rest s _)
    obtain ⟨hword, hheading, hinner⟩ := eq_of_linesOfAll_cons hms.1 hns.1 h
    cases m with
    | array n' t' length' =>
      obtain rfl : n = n' := congrArg Prod.fst hheading
      obtain ⟨-, e, rfl, he, -⟩ := hms.1
      obtain ⟨-, e', rfl, he', -⟩ := hns.1
      obtain rfl : e = e' := Tag.eq_of_cType_eq he he' hword
      have hlength : Nat.repr length ++ "];" = Nat.repr length' ++ "];" :=
        congrArg (·.2.2) hheading
      obtain rfl : length = length' := eq_of_repr_eq ((String.append_left_inj _).1 hlength)
      obtain ⟨rfl, hrest⟩ := ih hms.2 hns.2 hinner
      exact ⟨rfl, hrest⟩
    | scalar | nested => simp [heading] at hheading
  | nested n t kind blockName ms rest ih ihrest =>
    rcases ns with - | ⟨m, ns⟩
    · exact absurd h.symm (closing_ne_linesOfAll_cons level b _ rest s _)
    obtain ⟨-, hheading, hinner⟩ := eq_of_linesOfAll_cons hms.1 hns.1 h
    cases m with
    | nested n' t' kind' blockName' ms' =>
      obtain ⟨⟨-, rfl, rfl, rfl, hmembers⟩, hms⟩ := hms
      obtain ⟨⟨-, rfl, rfl, rfl, hmembers'⟩, hns⟩ := hns
      rw [innerLines, innerLines, List.append_assoc, List.append_assoc] at hinner
      -- the inner block is read first, and the line that closes it gives its name
      obtain ⟨rfl, rfl, houter⟩ := ih hmembers hmembers' hinner
      obtain ⟨rfl, hrest⟩ := ihrest hms hns houter
      exact ⟨rfl, hrest⟩
    | scalar | array => simp [heading] at hheading

end Member

/-! ### Blocks -/

namespace Block

/-- A declared block: an identifier for its name, and members of the shape that documents give. -/
def WellFormed (below : BlockKind) (b : Block) : Prop :=
  C.IsName b.name ∧ Member.WellFormed.allWellFormed below b.members

/-- What is declared for an object is well-formed. -/
theorem wellFormed_ofMembers (options : Options) (depth : Nat) (name : String)
    (ms : List (String × Json)) :
    (ofMembers options depth name ms).WellFormed (.atDepth options.nestedLayout (depth + 1)) :=
  ⟨C.isName_identifier name, Member.allWellFormed_ofMembers _ ms⟩

/-- The line that opens a block. -/
def opening (depth : Nat) (kind : BlockKind) : String :=
  Member.tabs (depth + 1) ++ kind.keyword ++ " \x7b"

theorem lines_eq (depth : Nat) (b : Block) :
    b.lines depth = opening depth b.kind ::
      (Member.lines.linesOfAll (depth + 2) b.members ++ [Member.closing (depth + 1) b.name]) :=
  rfl

/-- The text of a block determines the block and its end, given the kind. -/
theorem lines_append_inj {below : BlockKind} {depth : Nat} {b c : Block} (hb : b.WellFormed below)
    (hc : c.WellFormed below) (hkind : b.kind = c.kind) {r s : List String}
    (h : b.lines depth ++ r = c.lines depth ++ s) : b = c ∧ r = s := by
  rw [lines_eq, lines_eq, List.cons_append, List.cons_append, List.append_assoc,
    List.append_assoc] at h
  obtain ⟨hmembers, hname, hrest⟩ :=
    Member.linesOfAll_append_inj hb.2 hc.2 (List.cons.inj h).2
  obtain ⟨name, kind, members⟩ := b
  obtain ⟨name', kind', members'⟩ := c
  obtain rfl : name = name' := hname
  obtain rfl : kind = kind' := hkind
  obtain rfl : members = members' := hmembers
  exact ⟨rfl, hrest⟩

end Block

end JsonEmbed
