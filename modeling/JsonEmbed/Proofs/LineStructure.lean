import JsonEmbed.Program
import JsonEmbed.Proofs.Leaves
import JsonEmbed.Proofs.Scanning
import JsonEmbed.Text.Split

/-!
# The line structure of a program

Nothing that a document holds gets at the lines of its program. The lines are as many as the
declaration and the assignments ask for, and each of them is read by itself: no control character
stands in it but the tabs that it begins with, no trigraph and no backslash at its end, every string
literal that it opens it also closes, and it leaves ASCII only inside of literals.

Keys, the name of the root, numbers and strings come into a line by ways of their own. What they
have in common is `Tidy`: a text that leaves its reader as it was, whatever follows it. Plain
characters are tidy (`tidy_of_plain`), string literals are (`tidy_stringLiteral`), and so are texts
that follow each other; so a line is tidy piece by piece, and a text of tidy lines is `Undisturbed`.
-/

namespace JsonEmbed

/-! ### Texts that leave their reader alone -/

/-- A text that leaves a reader as it was, outside of literals, and opens no pair of neighbours that
would change the text. -/
structure Tidy (s : List Char) : Prop where
  printable : ∀ c ∈ s, C.IsPrintable c
  chain : ∀ t : List Char, t.IsChain C.Adjacent → (s ++ t).IsChain C.Adjacent
  closed : C.scan .code s = .code
  ascii : ∀ c ∈ C.outside .code s, c.toNat < 0x80

theorem Tidy.append {a b : List Char} (ha : Tidy a) (hb : Tidy b) : Tidy (a ++ b) where
  printable := List.forall_mem_append.2 ⟨ha.printable, hb.printable⟩
  chain t ht := by
    rw [List.append_assoc]
    exact ha.chain _ (hb.chain t ht)
  closed := by rw [C.scan_append, ha.closed, hb.closed]
  ascii := by
    rw [C.outside_append, ha.closed]
    exact List.forall_mem_append.2 ⟨ha.ascii, hb.ascii⟩

/-- Plain characters are tidy. -/
theorem tidy_of_plain {s : List Char} (h : C.Plain s) : Tidy s where
  printable c hc := ⟨(h c hc).1, (h c hc).2.1.ne⟩
  chain _ ht := C.isChain_append_of_forall (fun c hc ↦ ⟨(h c hc).2.2.2.2, (h c hc).2.2.2.1⟩) ht
  closed := C.scan_plain h
  ascii := by
    rw [C.outside_plain h]
    exact fun c hc ↦ Nat.lt_trans (h c hc).2.1 (by decide)

/-- String literals are tidy, whatever they hold. -/
theorem tidy_stringLiteral (s : String) : Tidy (C.stringLiteral s).toList where
  printable _ hc := C.isPrintable_of_mem_stringLiteral hc
  chain _ ht := C.isChain_stringLiteral s ht
  closed := C.scan_stringLiteral s
  ascii := by
    rw [C.outside_stringLiteral]
    exact List.forall_mem_singleton.2 (by decide)

/-- A line of a program: tabs, and a tidy text. -/
def TidyLine (l : List Char) : Prop :=
  ∃ (level : Nat) (s : List Char), l = List.replicate level '\t' ++ s ∧ Tidy s

/-- Plain characters are a line by themselves. -/
theorem tidyLine_of_plain {l : List Char} (h : C.Plain l) : TidyLine l :=
  ⟨0, l, rfl, tidy_of_plain h⟩

/-- Nothing in a line breaks it. -/
theorem TidyLine.isLine {l : String} (h : TidyLine l.toList) : IsLine l := by
  obtain ⟨level, s, hl, hs⟩ := h
  intro hn
  rw [hl, List.mem_append] at hn
  rcases hn with hn | hn
  · exact absurd (List.eq_of_mem_replicate hn) (by decide)
  · exact absurd (hs.printable _ hn) (by decide)

/-! ### Declarations -/

namespace Tag

theorem plain_cType (t : Tag) : C.Plain t.cType.toList := by
  cases t with
  | list e => exact show C.Plain "void*".toList by decide
  | _ => decide

theorem plain_elementType (t : Tag) : C.Plain t.elementType.toList := by
  cases t with
  | list e => exact plain_cType e
  | _ => exact plain_cType _

end Tag

theorem BlockKind.plain_keyword (kind : BlockKind) : C.Plain kind.keyword.toList := by
  cases kind <;> decide

namespace Member

theorem plain_word (m : Member) : C.Plain m.word.toList := by
  cases m with
  | scalar n t => exact t.plain_cType
  | array n t length => exact t.plain_elementType
  | nested n t kind blockName ms => exact kind.plain_keyword

/-- What ends the first line of a member is plain. -/
theorem plain_mark (m : Member) : C.Plain (m.heading.2.1 :: m.heading.2.2.toList) := by
  cases m with
  | scalar n t => exact show C.Plain [';'] by decide
  | nested n t kind blockName ms => exact show C.Plain ['\x7b'] by decide
  | array n t length =>
    have hlength : C.Plain (Nat.repr length ++ "];").toList := by
      rw [String.toList_append]
      exact (C.plain_of_isNumeral (isNumeral_repr length)).append (by decide)
    exact List.forall_mem_cons.2 ⟨show C.IsPlain '[' by decide, hlength⟩

theorem tidyLine_firstLine {below : BlockKind} (level : Nat) {m : Member}
    (h : m.WellFormed below) : TidyLine (m.firstLine level).toList :=
  ⟨level, _, toList_firstLine level m, tidy_of_plain (m.plain_word.append
    (List.forall_mem_cons.2 ⟨by decide, (isName_heading h).plain.append m.plain_mark⟩))⟩

theorem tidyLine_closing (level : Nat) {name : String} (h : C.IsName name) :
    TidyLine (closing level name).toList := by
  refine ⟨level, "\x7d ".toList ++ (name.toList ++ ";".toList), ?_, tidy_of_plain ?_⟩
  · rw [closing, String.toList_append, String.toList_append, String.toList_append, tabs,
      String.toList_ofList, List.append_assoc, List.append_assoc]
  · exact C.Plain.append (by decide) (h.plain.append (by decide))

/-- Every line of a declaration is tidy. -/
theorem tidyLine_of_mem_linesOfAll {below : BlockKind} {level : Nat} {ms : List Member}
    (hms : WellFormed.allWellFormed below ms) {l : String}
    (hl : l ∈ lines.linesOfAll level ms) : TidyLine l.toList := by
  induction ms using listInduction generalizing level with
  | nil => exact absurd hl List.not_mem_nil
  | scalar _ _ rest ih | array _ _ _ rest ih =>
    rw [linesOfAll_cons] at hl
    rcases List.mem_cons.1 hl with rfl | hl
    · exact tidyLine_firstLine level hms.1
    · exact ih hms.2 hl
  | nested n t kind blockName ms rest ih ihrest =>
    rw [linesOfAll_cons] at hl
    rcases List.mem_cons.1 hl with rfl | hl
    · exact tidyLine_firstLine level hms.1
    · obtain ⟨⟨hn, -, rfl, rfl, hmembers⟩, hrest⟩ := hms
      rw [innerLines, List.append_assoc, List.singleton_append, List.mem_append,
        List.mem_cons] at hl
      rcases hl with hl | rfl | hl
      · exact ih hmembers hl
      · exact tidyLine_closing level hn
      · exact ihrest hrest hl

/-- Whether a member is a block. -/
def isNested : Member → Bool
  | nested _ _ _ _ _ => true
  | scalar _ _ | array _ _ _ => false

/-- A declaration takes two lines for every block and one for everything else. -/
theorem length_linesOfAll (level : Nat) (ms : List Member) :
    (lines.linesOfAll level ms).length = 2 * (blocks.blocksOfAll ms).length +
      (ms :: blocks.blocksOfAll ms).flatten.countP (!·.isNested) := by
  induction ms using listInduction generalizing level with
  | nil => rfl
  | scalar n t rest ih =>
    simp only [List.flatten_cons, List.countP_append] at ih ⊢
    simp [linesOfAll_cons, innerLines, blocks.blocksOfAll, blocks, ih, isNested]
    omega
  | array n t length rest ih =>
    simp only [List.flatten_cons, List.countP_append] at ih ⊢
    simp [linesOfAll_cons, innerLines, blocks.blocksOfAll, blocks, ih, isNested]
    omega
  | nested n t kind blockName ms rest ih ihrest =>
    simp only [List.flatten_cons, List.countP_append] at ih ihrest ⊢
    simp [linesOfAll_cons, innerLines, blocks.blocksOfAll, blocks, ih, ihrest, isNested]
    omega

end Member

namespace Block

/-- Every line of a block is tidy. -/
theorem tidyLine_of_mem_lines {below : BlockKind} {depth : Nat} {b : Block}
    (hb : b.WellFormed below) {l : String} (hl : l ∈ b.lines depth) : TidyLine l.toList := by
  rw [lines_eq, List.mem_cons, List.mem_append, List.mem_singleton] at hl
  rcases hl with rfl | hl | rfl
  · refine ⟨depth + 1, b.kind.keyword.toList ++ " \x7b".toList, ?_, tidy_of_plain ?_⟩
    · rw [opening, String.toList_append, String.toList_append, Member.tabs,
        String.toList_ofList, List.append_assoc]
    · exact b.kind.plain_keyword.append (by decide)
  · exact Member.tidyLine_of_mem_linesOfAll hb.2 hl
  · exact Member.tidyLine_closing _ hb.1

/-- A block takes two lines for itself and every block inside it, and one for everything else. -/
theorem length_lines (depth : Nat) (b : Block) :
    (b.lines depth).length =
      2 * b.blocks.length + b.blocks.flatten.countP (!·.isNested) := by
  rw [lines_eq, blocks, List.length_cons, List.length_append, Member.length_linesOfAll,
    List.length_singleton, List.length_cons]
  omega

end Block

/-! ### Assignments -/

namespace Literal

/-- The literal of a value is tidy. -/
theorem tidy_cText_ofJson (v : Json) : Tidy (ofJson v).cText.toList := by
  cases v with
  | null | array | object => exact tidy_of_plain (show C.Plain "NULL".toList by decide)
  | boolean b => cases b <;> exact tidy_of_plain (by decide)
  | number n => exact tidy_of_plain (C.plain_of_isNumeral (isNumeral_cText n))
  | string s => exact tidy_stringLiteral s

end Literal

namespace Leaf

/-- What the slot of a leaf is set to is tidy. -/
theorem tidy_cText_literal (mode : ArrayInitializer) (l : Leaf) :
    Tidy (l.literal mode).cText.toList := by
  obtain ⟨keys, index, value⟩ := l
  rcases index with - | i
  · exact Literal.tidy_cText_ofJson value
  · cases mode with
    | values => exact Literal.tidy_cText_ofJson value
    | indices => exact tidy_of_plain (C.plain_of_isNumeral (isNumeral_repr i))

/-- The address of a leaf is plain, whatever its keys are. -/
theorem plain_address (l : Leaf) : C.Plain l.address.text.toList := by
  obtain ⟨keys, index, value⟩ := l
  have hindex : C.Plain (Address.indexText index).toList := by
    rcases index with - | i
    · decide
    · rw [Address.indexText, String.toList_append, String.toList_append]
      exact (C.Plain.append (by decide) (C.plain_of_isNumeral (isNumeral_repr i))).append
        (by decide)
  have hnames : C.Plain (Address.namesText (keys.map C.identifier)).toList := by
    induction keys with
    | nil => decide
    | cons key keys ih =>
      rw [List.map_cons, Address.namesText, String.toList_append, String.toList_append]
      exact (C.Plain.append (by decide) (C.isName_identifier key).plain).append ih
  rw [address, Address.text, String.toList_append]
  exact hnames.append hindex

/-- The line of an assignment to a leaf is tidy. -/
theorem tidyLine_assignment (mode : ArrayInitializer) {path : String} (hpath : C.Plain path.toList)
    (l : Leaf) : TidyLine (l.assignment mode path).line.toList := by
  refine ⟨1, path.toList ++ l.address.text.toList ++ " = ".toList ++
    ((l.literal mode).cText.toList ++ ";".toList), ?_, ?_⟩
  · simp only [assignment, Assignment.line, String.toList_append, List.append_assoc]
    rfl
  · exact (tidy_of_plain ((hpath.append l.plain_address).append (by decide))).append
      ((l.tidy_cText_literal mode).append (tidy_of_plain (by decide)))

end Leaf

/-! ### Programs -/

namespace Program

/-- The lines of the body after the declaration. -/
def statements (assignments : List Assignment) : List String :=
  if assignments.isEmpty then [] else "" :: assignments.map Assignment.line

theorem lines_eq (b : Block) (assignments : List Assignment) :
    lines b assignments =
      preamble ++ (b.lines 0 ++ (statements assignments ++ ("" :: epilogue))) := by
  simp only [lines, statements, List.append_assoc, List.singleton_append]

theorem length_statements (assignments : List Assignment) :
    (statements assignments).length =
      if assignments = [] then 0 else 1 + assignments.length := by
  cases assignments with
  | nil => rfl
  | cons a as => simp [statements, Nat.add_comm]

/-- Every line of a program is tidy if those of its assignments are. -/
theorem tidyLine_of_mem_lines {below : BlockKind} {b : Block} (hb : b.WellFormed below)
    {assignments : List Assignment} (has : ∀ a ∈ assignments, TidyLine a.line.toList)
    {l : String} (hl : l ∈ lines b assignments) : TidyLine l.toList := by
  have hplain : ∀ l ∈ preamble ++ ["", "\x7d"], C.Plain l.toList := by decide
  have hreturn : TidyLine "\treturn 0;".toList :=
    ⟨1, "return 0;".toList, rfl, tidy_of_plain (by decide)⟩
  have hempty : TidyLine [] := tidyLine_of_plain (by decide)
  rw [lines_eq, List.mem_append, List.mem_append, List.mem_append] at hl
  rcases hl with hl | hl | hl | hl
  · exact tidyLine_of_plain (hplain l (List.mem_append_left _ hl))
  · exact Block.tidyLine_of_mem_lines hb hl
  · rw [statements] at hl
    split at hl
    · exact absurd hl List.not_mem_nil
    · rcases List.mem_cons.1 hl with rfl | hl
      · exact hempty
      · obtain ⟨a, ha, rfl⟩ := List.mem_map.1 hl
        exact has a ha
  · simp only [epilogue, List.mem_cons, List.not_mem_nil, or_false] at hl
    rcases hl with rfl | rfl | rfl
    · exact hempty
    · exact hreturn
    · exact tidyLine_of_plain (by decide)

end Program

/-! ### Texts of lines -/

/-- A text has as many line breaks as lines. -/
theorem count_unlines {ls : List String} (h : ∀ l ∈ ls, IsLine l) :
    (unlines ls).toList.count '\n' = ls.length := by
  induction ls with
  | nil => rfl
  | cons l ls ih =>
    obtain ⟨hl, hls⟩ := List.forall_mem_cons.1 h
    rw [toList_unlines_cons, List.count_append, List.count_cons_self, ih hls,
      List.count_eq_zero_of_not_mem hl, List.length_cons, Nat.zero_add]

/-- A text splits into its lines and an empty rest. -/
theorem splitOn_unlines {ls : List String} (h : ∀ l ∈ ls, IsLine l) :
    splitOn '\n' (unlines ls).toList = ls.map String.toList ++ [[]] := by
  induction ls with
  | nil => rfl
  | cons l ls ih =>
    obtain ⟨hl, hls⟩ := List.forall_mem_cons.1 h
    rw [toList_unlines_cons, splitOn_append_cons, splitOn_of_not_mem hl, ih hls]
    rfl

/-- A text whose lines are read one by one. -/
structure Undisturbed (text : List Char) : Prop where
  /-- There are no two question marks in a row. -/
  no_trigraph : ¬['?', '?'] <:+: text
  /-- No backslash joins two lines. -/
  no_splice : ¬['\\', '\n'] <:+: text
  /-- After the tabs that it begins with, a line holds no control character. -/
  printable : ∀ l ∈ splitOn '\n' text, ∀ c ∈ l.dropWhile (· = '\t'), C.IsPrintable c
  /-- A line closes the string literals that it opens. -/
  closed : ∀ l ∈ splitOn '\n' text, C.scan .code l = .code
  /-- Outside of string literals a line holds only ASCII. -/
  ascii : ∀ l ∈ splitOn '\n' text, ∀ c ∈ C.outside .code l, c.toNat < 0x80

/-- No neighbours in a text of tidy lines change how it is read. -/
theorem isChain_unlines {ls : List String} (h : ∀ l ∈ ls, TidyLine l.toList) :
    (unlines ls).toList.IsChain C.Adjacent := by
  induction ls with
  | nil => exact List.isChain_nil
  | cons l ls ih =>
    obtain ⟨⟨level, s, hl, hs⟩, hls⟩ := List.forall_mem_cons.1 h
    have hbreak : ('\n' :: (unlines ls).toList).IsChain C.Adjacent :=
      C.isChain_append_of_forall (List.forall_mem_singleton.2 (by decide)) (ih hls)
    rw [toList_unlines_cons, hl, List.append_assoc]
    refine C.isChain_append_of_forall (fun c hc ↦ ?_) (hs.chain _ hbreak)
    rw [List.eq_of_mem_replicate hc]
    decide

/-- Tabs are passed over outside of literals. -/
theorem scan_tabs (level : Nat) (s : List Char) :
    C.scan .code (List.replicate level '\t' ++ s) = C.scan .code s ∧
      C.outside .code (List.replicate level '\t' ++ s) =
        List.replicate level '\t' ++ C.outside .code s := by
  induction level with
  | zero => exact ⟨rfl, rfl⟩
  | succ level ih =>
    rw [List.replicate_succ, List.cons_append]
    exact ⟨ih.1, congrArg ('\t' :: ·) ih.2⟩

/-- **Tidy lines make an undisturbed text.** -/
theorem undisturbed_unlines {ls : List String} (h : ∀ l ∈ ls, TidyLine l.toList) :
    Undisturbed (unlines ls).toList := by
  have hchain := isChain_unlines h
  -- the rest after the last line break is a line as well, an empty one
  have hsplit : ∀ l ∈ splitOn '\n' (unlines ls).toList, TidyLine l := by
    intro l hl
    rw [splitOn_unlines fun l hl ↦ (h l hl).isLine, List.mem_append, List.mem_singleton] at hl
    rcases hl with hl | rfl
    · obtain ⟨k, hk, rfl⟩ := List.mem_map.1 hl
      exact h k hk
    · exact tidyLine_of_plain (by decide)
  refine ⟨C.not_infix_of_isChain (fun h ↦ h.1 ⟨rfl, rfl⟩) hchain,
    C.not_infix_of_isChain (fun h ↦ h.2 ⟨rfl, rfl⟩) hchain, ?_, ?_, ?_⟩
  · intro l hl c hc
    obtain ⟨level, s, rfl, hs⟩ := hsplit l hl
    rw [List.dropWhile_append_of_pos fun d hd ↦ by simp [List.eq_of_mem_replicate hd]] at hc
    exact hs.printable c ((List.dropWhile_sublist _).subset hc)
  · intro l hl
    obtain ⟨level, s, rfl, hs⟩ := hsplit l hl
    rw [(scan_tabs level s).1, hs.closed]
  · intro l hl c hc
    obtain ⟨level, s, rfl, hs⟩ := hsplit l hl
    rw [(scan_tabs level s).2, List.mem_append] at hc
    rcases hc with hc | hc
    · rw [List.eq_of_mem_replicate hc]
      decide
    · exact hs.ascii c hc

namespace Json

variable (options : Options) (v : Json)

/-- Every line of the program for a value is tidy. -/
theorem tidyLine_of_mem_lines {l : String}
    (hl : l ∈ Program.lines (v.block options) (v.assignments options)) : TidyLine l.toList := by
  refine Program.tidyLine_of_mem_lines
    (Block.wellFormed_ofMembers options 0 options.rootName v.members) (fun a ha ↦ ?_) hl
  rw [assignments, Assignment.ofMembers_eq_map_leaves] at ha
  obtain ⟨leaf, -, rfl⟩ := List.mem_map.1 ha
  exact leaf.tidyLine_assignment _ (C.isName_identifier _).plain

/-- The lines of the program for a value hold no line break. -/
theorem isLine_of_mem_lines {l : String}
    (hl : l ∈ Program.lines (v.block options) (v.assignments options)) : IsLine l :=
  (v.tidyLine_of_mem_lines options hl).isLine

/-- **What a document holds does not disturb the lines of its program.** There are as many as the
declaration and the assignments ask for, and each is read by itself. -/
theorem program_undisturbed :
    (v.program options).toList.count '\n' =
        8 + 2 * (v.block options).blocks.length +
          (v.block options).blocks.flatten.countP (!·.isNested) +
          (if v.assignments options = [] then 0 else 1 + (v.assignments options).length) ∧
      Undisturbed (v.program options).toList := by
  refine ⟨?_, undisturbed_unlines fun _ ↦ v.tidyLine_of_mem_lines options⟩
  rw [program, count_unlines fun _ ↦ v.isLine_of_mem_lines options, Program.lines_eq,
    List.length_append, List.length_append, List.length_append, Block.length_lines,
    Program.length_statements]
  simp only [Program.preamble, Program.epilogue, List.length_cons, List.length_nil]
  omega

end Json

end JsonEmbed
