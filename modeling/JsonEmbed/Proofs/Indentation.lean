import JsonEmbed.Proofs.LineStructure

/-!
# Indentation of declarations

A declaration is made for a depth, and the depth comes in twice: it is part of what is declared,
since the outermost block is a structure, and it says how far the lines are moved in. One level
deeper the text is the same with one more tab at the start of every line, unless this turns a
structure into a union (`declaration_succ_iff`). That lines are moved in as lines rests on names
holding no line break: a tab goes before the lines that were written, and there are no others.

So the declaration of an object holds those of its nested objects as they are, each at the place of
its own key (`declaration_eq_enclosed`, `fieldsText_object`), and the lines of a declaration are
`Balanced`: what opens a block and what closes it stand at one level, with the lines between them
one level further in.
-/

namespace JsonEmbed

/-! ### Texts that are moved in -/

/-- A text with a tab at the start of every line. The first argument says whether a line starts with
the text. -/
def indentFrom (starting : Bool) : List Char → List Char
  | [] => []
  | c :: cs =>
    let moved := c :: indentFrom (c == '\n') cs
    if starting then '\t' :: moved else moved

/-- A text with a tab at the start of every line. -/
def indent (text : String) : String :=
  String.ofList (indentFrom true text.toList)

/-- What is left of a line stays as it is, and the tab comes after its end. -/
theorem indentFrom_line {l : List Char} (hl : '\n' ∉ l) (rest : List Char) :
    indentFrom false (l ++ '\n' :: rest) = l ++ '\n' :: indentFrom true rest := by
  induction l with
  | nil => rfl
  | cons c l ih =>
    obtain ⟨hc, hl⟩ := not_or.1 fun hmem ↦ hl (List.mem_cons.2 hmem)
    have hbreak : (c == '\n') = false := by simpa using Ne.symm hc
    rw [List.cons_append, indentFrom, hbreak, ih hl]
    rfl

/-- A line that starts gets a tab. -/
theorem indentFrom_fresh_line {l : List Char} (hl : '\n' ∉ l) (rest : List Char) :
    indentFrom true (l ++ '\n' :: rest) = '\t' :: (l ++ '\n' :: indentFrom true rest) := by
  rw [← indentFrom_line hl]
  cases l <;> rfl

/-- A text is moved in by moving its lines in. -/
theorem indent_unlines {ls : List String} (h : ∀ l ∈ ls, IsLine l) :
    indent (unlines ls) = unlines (ls.map ("\t" ++ ·)) := by
  induction ls with
  | nil => rfl
  | cons l ls ih =>
    obtain ⟨hl, hls⟩ := List.forall_mem_cons.1 h
    have hrest : indentFrom true (unlines ls).toList = (unlines (ls.map ("\t" ++ ·))).toList := by
      rw [← ih hls, indent, String.toList_ofList]
    rw [← String.toList_inj, indent, String.toList_ofList, toList_unlines_cons,
      indentFrom_fresh_line hl, hrest, List.map_cons, toList_unlines_cons, String.toList_append]
    rfl

theorem unlines_append (a b : List String) : unlines (a ++ b) = unlines a ++ unlines b := by
  induction a with
  | nil => rw [List.nil_append]; exact (String.empty_append).symm
  | cons l a ih =>
    rw [List.cons_append, unlines_cons, ih, unlines_cons, ← String.append_assoc]

/-! ### One level deeper -/

namespace BlockKind

/-- A block is of the same kind one level deeper, unless it is the outermost one and nested ones are
unions. -/
theorem atDepth_succ_eq_iff (layout : NestedLayout) (depth : Nat) :
    atDepth layout (depth + 1) = atDepth layout depth ↔ depth ≠ 0 ∨ layout = .struct := by
  cases depth with
  | zero => cases layout <;> simp [atDepth]
  | succ depth => simp [atDepth]

theorem eq_of_opening_eq {depth : Nat} {kind kind' : BlockKind}
    (h : Block.opening depth kind = Block.opening depth kind') : kind = kind' := by
  have hkeyword : kind.keyword = kind'.keyword :=
    (String.append_right_inj _).1 ((String.append_left_inj _).1 h)
  cases kind <;> cases kind'
  case struct.struct | union.union => rfl
  all_goals exact absurd hkeyword (by decide)

end BlockKind

namespace Member

theorem tabs_succ (level : Nat) : tabs (level + 1) = "\t" ++ tabs level := by
  simp [tabs, List.replicate_succ]

theorem firstLine_succ (level : Nat) (m : Member) :
    m.firstLine (level + 1) = "\t" ++ m.firstLine level := by
  simp only [firstLine, tabs_succ, String.append_assoc]

theorem closing_succ (level : Nat) (name : String) :
    closing (level + 1) name = "\t" ++ closing level name := by
  simp only [closing, tabs_succ, String.append_assoc]

/-- The lines of members, one level further in. -/
theorem linesOfAll_succ (level : Nat) (ms : List Member) :
    lines.linesOfAll (level + 1) ms = (lines.linesOfAll level ms).map ("\t" ++ ·) := by
  induction ms using listInduction generalizing level with
  | nil => rfl
  | scalar n t rest ih | array n t length rest ih =>
    rw [linesOfAll_cons, linesOfAll_cons, List.map_cons, ih, firstLine_succ]
    rfl
  | nested n t kind blockName ms rest ih ihrest =>
    rw [linesOfAll_cons, linesOfAll_cons, innerLines, innerLines, ih, ihrest, firstLine_succ,
      closing_succ]
    simp

end Member

namespace Block

/-- The lines of a block, one level further in. -/
theorem lines_succ (depth : Nat) (b : Block) :
    b.lines (depth + 1) = (b.lines depth).map ("\t" ++ ·) := by
  rw [lines_eq, lines_eq, opening, opening, Member.linesOfAll_succ, Member.closing_succ,
    Member.tabs_succ]
  simp [String.append_assoc]

/-- What is declared does not depend on the depth, but for the kind of the outermost block. -/
theorem ofMembers_succ_eq_iff (options : Options) (depth : Nat) (name : String)
    (ms : List (String × Json)) :
    ofMembers options (depth + 1) name ms = ofMembers options depth name ms ↔
      depth ≠ 0 ∨ options.nestedLayout = .struct := by
  rw [← BlockKind.atDepth_succ_eq_iff options.nestedLayout depth]
  refine ⟨fun h ↦ congrArg kind h, fun h ↦ ?_⟩
  -- the blocks inside are of one kind at both depths, which are below the outermost one
  exact congrArg (Block.mk (C.identifier name) · (Member.ofMembers _ ms)) h

/-- Nothing in a declaration breaks its lines. -/
theorem isLine_of_mem_lines (options : Options) (depth level : Nat) (name : String)
    (ms : List (String × Json)) :
    ∀ l ∈ (ofMembers options depth name ms).lines level, IsLine l :=
  fun _ hl ↦ (tidyLine_of_mem_lines (wellFormed_ofMembers options depth name ms) hl).isLine

end Block

/-! ### Texts of declarations -/

section Declarations

variable (options : Options) (depth : Nat)

/-- The text that declares an object under a name, at a depth. -/
def declaration (name : String) (ms : List (String × Json)) : String :=
  unlines ((Block.ofMembers options depth name ms).lines depth)

/-- The lines that declare the value of one key of an object at a depth. A dropped value has
none. -/
def fieldLines (field : String × Json) : List String :=
  (Member.ofJson? (.atDepth options.nestedLayout (depth + 1)) field.1 field.2).elim []
    (Member.lines (depth + 2))

/-- The text that declares the values of several keys. -/
def fieldsText (fields : List (String × Json)) : String :=
  unlines (fields.flatMap (fieldLines options depth))

/-- A text between the lines that open and close the declaration of an object. -/
def enclosed (name inner : String) : String :=
  unlines [Block.opening depth (.atDepth options.nestedLayout depth)] ++ inner ++
    unlines [Member.closing (depth + 1) (C.identifier name)]

theorem fieldsText_append (before after : List (String × Json)) :
    fieldsText options depth (before ++ after) =
      fieldsText options depth before ++ fieldsText options depth after := by
  rw [fieldsText, List.flatMap_append, unlines_append]
  rfl

/-- The lines of an object's members are those of its keys, one after the other. -/
theorem linesOfAll_ofMembers (ms : List (String × Json)) :
    Member.lines.linesOfAll (depth + 2)
        (Member.ofMembers (.atDepth options.nestedLayout (depth + 1)) ms) =
      ms.flatMap (fieldLines options depth) := by
  induction ms with
  | nil => rfl
  | cons field rest ih =>
    obtain ⟨key, v⟩ := field
    rw [List.flatMap_cons, ← ih, fieldLines, Member.ofMembers, Member.ofJson?.ofMembers]
    cases Member.ofJson? (.atDepth options.nestedLayout (depth + 1)) key v <;> rfl

/-- A declaration is the texts of the keys between the line that opens it and the one that closes
it. -/
theorem declaration_eq_enclosed (name : String) (ms : List (String × Json)) :
    declaration options depth name ms =
      enclosed options depth name (fieldsText options depth ms) := by
  rw [enclosed, fieldsText, ← linesOfAll_ofMembers, ← unlines_append, ← unlines_append]
  rfl

/-- The text for the key of a nested object is the declaration of this object one level deeper. -/
theorem fieldsText_object (key : String) (child : List (String × Json)) :
    fieldsText options depth [(key, .object child)] =
      declaration options (depth + 1) key child := by
  rw [fieldsText, List.flatMap_singleton]
  rfl

/-- A declaration is moved in if it is made one level deeper, unless a structure becomes a union. -/
theorem declaration_succ_iff (name : String) (ms : List (String × Json)) :
    declaration options (depth + 1) name ms = indent (declaration options depth name ms) ↔
      depth ≠ 0 ∨ options.nestedLayout = .struct := by
  have hlines := Block.isLine_of_mem_lines options
  have hmoved : indent (declaration options depth name ms) =
      unlines ((Block.ofMembers options depth name ms).lines (depth + 1)) := by
    rw [declaration, indent_unlines (hlines depth depth name ms), Block.lines_succ]
  rw [hmoved, ← Block.ofMembers_succ_eq_iff options depth name ms]
  refine ⟨fun h ↦ ?_, fun h ↦ by rw [declaration, h]⟩
  -- the first lines are equal, and so the kinds are
  have hopening := (List.cons.inj (eq_of_unlines_eq (hlines _ _ name ms) (hlines _ _ name ms) h)).1
  rw [Block.ofMembers_succ_eq_iff, ← BlockKind.atDepth_succ_eq_iff]
  exact BlockKind.eq_of_opening_eq hopening

end Declarations

/-! ### Balanced lines -/

/-- A text with no brace in it, no tab and no line break. -/
def Unbraced (s : String) : Prop :=
  ∀ c ∈ s.toList, c ∉ ['\x7b', '\x7d', '\t', '\n']

instance (s : String) : Decidable (Unbraced s) :=
  List.decidableBAll (fun c ↦ c ∉ ['\x7b', '\x7d', '\t', '\n']) s.toList

theorem Unbraced.append {s t : String} (hs : Unbraced s) (ht : Unbraced t) : Unbraced (s ++ t) := by
  intro c hc
  rw [String.toList_append, List.mem_append] at hc
  exact hc.elim (hs c) (ht c)

/-- A text is unbraced if its characters are of a kind that the four are not. -/
theorem unbraced_of_forall {p : Char → Bool} {s : String} (h : ∀ c ∈ s.toList, p c = true)
    (hp : ['\x7b', '\x7d', '\t', '\n'].filter p = []) : Unbraced s :=
  fun c hc hmem ↦ List.filter_eq_nil_iff.1 hp c hmem (h c hc)

theorem C.IsName.unbraced {n : String} (h : C.IsName n) : Unbraced n :=
  unbraced_of_forall h (by decide)

theorem unbraced_repr (n : Nat) : Unbraced (Nat.repr n) :=
  unbraced_of_forall (isNumeral_repr n) (by decide)

theorem Tag.unbraced_cType (t : Tag) : Unbraced t.cType := by
  cases t with
  | list e => exact show Unbraced "void*" by decide
  | _ => decide

theorem Tag.unbraced_elementType (t : Tag) : Unbraced t.elementType := by
  cases t with
  | list e => exact unbraced_cType e
  | _ => exact unbraced_cType _

theorem BlockKind.unbraced_keyword (kind : BlockKind) : Unbraced kind.keyword := by
  cases kind <;> decide

/-- Lines at a level in which braces come in pairs. A brace ends the line that opens a block and
begins the one that closes it; both stand at the level of the lines around the block, and the lines
between them are one level further in. -/
inductive Balanced : Nat → List String → Prop
  | nil (level : Nat) : Balanced level []
  | line {level : Nat} {s : String} {rest : List String} (hs : Unbraced s)
      (hrest : Balanced level rest) : Balanced level ((Member.tabs level ++ s) :: rest)
  | block {level : Nat} {word name : String} {inner rest : List String} (hword : Unbraced word)
      (hname : Unbraced name) (hinner : Balanced (level + 1) inner)
      (hrest : Balanced level rest) :
      Balanced level ((Member.tabs level ++ word ++ " \x7b") ::
        (inner ++ (Member.tabs level ++ "\x7d " ++ name ++ ";") :: rest))

/-- The lines of well-formed members are balanced. -/
theorem Member.balanced_linesOfAll {below : BlockKind} {level : Nat} {ms : List Member}
    (hms : WellFormed.allWellFormed below ms) : Balanced level (lines.linesOfAll level ms) := by
  induction ms using listInduction generalizing level with
  | nil => exact .nil level
  | scalar n t rest ih =>
    have hline : Unbraced (t.cType ++ (" " ++ (n ++ ";"))) :=
      t.unbraced_cType.append (.append (by decide) (.append hms.1.1.unbraced (by decide)))
    have hrest : Balanced level (lines.linesOfAll level rest) := ih hms.2
    have hbalanced := Balanced.line hline hrest
    simpa only [lines.linesOfAll, lines, String.append_assoc, List.singleton_append] using hbalanced
  | array n t length rest ih =>
    have hlength : Unbraced ("[" ++ (Nat.repr length ++ "];")) :=
      .append (by decide) ((unbraced_repr length).append (by decide))
    have hline : Unbraced (t.elementType ++ (" " ++ (n ++ ("[" ++ (Nat.repr length ++ "];"))))) :=
      t.unbraced_elementType.append (.append (by decide) (hms.1.1.unbraced.append hlength))
    have hrest : Balanced level (lines.linesOfAll level rest) := ih hms.2
    have hbalanced := Balanced.line hline hrest
    simpa only [lines.linesOfAll, lines, String.append_assoc, List.singleton_append] using hbalanced
  | nested n t kind blockName ms rest ih ihrest =>
    obtain ⟨⟨hn, -, -, rfl, hmembers⟩, hrest⟩ := hms
    have hinner : Balanced (level + 1) (lines.linesOfAll (level + 1) ms) := ih hmembers
    have houter : Balanced level (lines.linesOfAll level rest) := ihrest hrest
    have hbalanced := Balanced.block kind.unbraced_keyword hn.unbraced hinner houter
    simpa only [lines.linesOfAll, lines, List.cons_append, List.append_assoc,
      List.nil_append] using hbalanced

/-- The lines of a declaration are balanced. -/
theorem Block.balanced_lines (options : Options) (depth : Nat) (name : String)
    (ms : List (String × Json)) :
    Balanced (depth + 1) ((ofMembers options depth name ms).lines depth) := by
  have h := wellFormed_ofMembers options depth name ms
  exact .block (BlockKind.unbraced_keyword _) h.1.unbraced (Member.balanced_linesOfAll h.2)
    (.nil (depth + 1))

/-! ### Declarations at every depth -/

/-- **Declarations are made alike at every depth.** One level deeper the text is moved in by a tab
at the start of every line, exactly if the depth is not the outermost one or nested objects are
structures too. The text for the key of a nested object, between the texts for the keys before and
after it, is the declaration of this object one level deeper; and the lines are balanced. -/
theorem declaration_at_every_depth (options : Options) (depth : Nat) (name : String) :
    (∀ ms, declaration options (depth + 1) name ms = indent (declaration options depth name ms) ↔
        depth ≠ 0 ∨ options.nestedLayout = .struct) ∧
      (∀ ms, declaration options depth name ms =
        enclosed options depth name (fieldsText options depth ms)) ∧
      (∀ before key child after,
        declaration options depth name (before ++ (key, .object child) :: after) =
          enclosed options depth name (fieldsText options depth before ++
            declaration options (depth + 1) key child ++ fieldsText options depth after)) ∧
      ∀ ms, ∃ lines, declaration options depth name ms = unlines lines ∧
        Balanced (depth + 1) lines := by
  refine ⟨declaration_succ_iff options depth name, declaration_eq_enclosed options depth name,
    fun before key child after ↦ ?_,
    fun ms ↦ ⟨_, rfl, Block.balanced_lines options depth name ms⟩⟩
  have hsplit : before ++ (key, Json.object child) :: after =
      before ++ [(key, Json.object child)] ++ after := by
    rw [List.append_assoc, List.singleton_append]
  rw [declaration_eq_enclosed, hsplit, fieldsText_append, fieldsText_append, fieldsText_object]

/-- An object in an object, moved in by one tab a level. -/
example : declaration {} 1 "n" [("x", .boolean true), ("y z", .object [])] =
    "\t\tunion \x7b\n\t\t\tbool x;\n\t\t\tunion \x7b\n\t\t\t\x7d y_z;\n\t\t\x7d n;\n" := by
  decide

end JsonEmbed
