import JsonEmbed.Proofs.Assignments
import JsonEmbed.Proofs.Contents
import JsonEmbed.Proofs.Declarations
import JsonEmbed.Proofs.LineStructure
import JsonEmbed.Proofs.Slots

/-!
# Programs read back

Two documents have the same program only if they have the same contents. The lines of a program give
its declaration, since the text of a block says where it ends (`Block.lines_append_inj`). Equal
declarations have equal slots, so the assignments go to the same targets
(`Assignment.map_target_ofMembers`), and their lines differ only where the texts of their literals
do.

What remains is to put contents together again from their declaration and the texts of their
literals. The declaration says how many literals each member takes and of which kind they are, so
the texts are used up from the left; `eq_of_members_eq` states this with whatever texts come after.
-/

namespace JsonEmbed

namespace Content

/-! ### Contents from their parts -/

/-- The literals of a content are of the kind that its tag says. -/
def WellFormed : Content → Prop
  | scalar t l => l.Fits t
  | array t ls => ∀ l ∈ ls, l.Fits t
  | object cs => allWellFormed cs
where
  /-- Several contents. -/
  allWellFormed : List (String × Content) → Prop
    | [] => True
    | (_, c) :: rest => c.WellFormed ∧ allWellFormed rest

/-- The contents of an object are well-formed. -/
theorem allWellFormed_contentsOf (ms : List (String × Json)) :
    WellFormed.allWellFormed (Json.content.contentsOf ms) := by
  induction ms using Json.membersInduction with
  | nil => trivial
  | object key ms rest ih ihrest =>
    rw [Json.contentsOf_object]
    exact ⟨ih, ihrest⟩
  | array key xs t rest h ih =>
    rw [Json.contentsOf_array _ _ h]
    exact ⟨fun _ hl ↦ Literal.fits_of_mem_elements h hl, ih⟩
  | scalar key v t rest h ih =>
    rw [Json.contentsOf_scalar _ _ h]
    exact ⟨Literal.fits_ofJson h, ih⟩
  | dropped key v rest h ih =>
    rw [Json.contentsOf_dropped _ _ h]
    exact ih

/-- The declaration of contents begins with that of the first one. -/
theorem exists_cons_of_membersOf_eq {below : BlockKind} {n : String} {c : Content}
    {cs ds : List (String × Content)}
    (h : member.membersOf below ((n, c) :: cs) = member.membersOf below ds) :
    ∃ n' d ds', ds = (n', d) :: ds' ∧ c.member below n = d.member below n' ∧
      member.membersOf below cs = member.membersOf below ds' := by
  rcases ds with - | ⟨⟨n', d⟩, ds⟩
  · exact absurd h (by simp [member.membersOf])
  · exact ⟨n', d, ds, rfl, List.cons.inj h⟩

/-- The texts of the literals of contents begin with those of the first one. -/
theorem literalsTexts_append (n : String) (c : Content) (cs : List (String × Content))
    (r : List String) :
    (literals.literalsOf ((n, c) :: cs)).map Literal.cText ++ r =
      c.literals.map Literal.cText ++ ((literals.literalsOf cs).map Literal.cText ++ r) := by
  rw [literals.literalsOf, List.map_append, List.append_assoc]

/-- **Contents can be put together from their declaration and the texts of their literals**, and
these texts say where they end. -/
theorem eq_of_members_eq {below : BlockKind} {cs ds : List (String × Content)}
    (hcs : WellFormed.allWellFormed cs) (hds : WellFormed.allWellFormed ds)
    (hmembers : member.membersOf below cs = member.membersOf below ds) {r s : List String}
    (htexts : (literals.literalsOf cs).map Literal.cText ++ r =
      (literals.literalsOf ds).map Literal.cText ++ s) :
    cs = ds ∧ r = s := by
  induction cs using listInduction generalizing ds r s with
  | nil =>
    rcases ds with - | ⟨⟨n, d⟩, ds⟩
    · exact ⟨rfl, htexts⟩
    · exact absurd hmembers (by simp [member.membersOf])
  | scalar n t l rest ih =>
    obtain ⟨n', d, ds, rfl, hmember, hrestMembers⟩ := exists_cons_of_membersOf_eq hmembers
    rw [literalsTexts_append, literalsTexts_append] at htexts
    cases d with
    | scalar t' l' =>
      obtain ⟨rfl, rfl⟩ := Member.scalar.inj hmember
      obtain ⟨htext, hrestTexts⟩ := List.cons.inj htexts
      obtain rfl := Literal.eq_of_cText_eq hcs.1 hds.1 htext
      obtain ⟨rfl, hrest⟩ := ih hcs.2 hds.2 hrestMembers hrestTexts
      exact ⟨rfl, hrest⟩
    | array | object => exact Member.noConfusion hmember
  | array n t ls rest ih =>
    obtain ⟨n', d, ds, rfl, hmember, hrestMembers⟩ := exists_cons_of_membersOf_eq hmembers
    rw [literalsTexts_append, literalsTexts_append] at htexts
    cases d with
    | array t' ls' =>
      obtain ⟨rfl, htag, hlength⟩ := Member.array.inj hmember
      obtain rfl := Tag.list.inj htag
      -- the declared length says how many texts belong to this array
      obtain ⟨htext, hrestTexts⟩ := List.append_inj htexts
        (by rw [List.length_map, List.length_map]; exact hlength)
      obtain rfl := Literal.eq_of_map_cText_eq hcs.1 hds.1 htext
      obtain ⟨rfl, hrest⟩ := ih hcs.2 hds.2 hrestMembers hrestTexts
      exact ⟨rfl, hrest⟩
    | scalar | object => exact Member.noConfusion hmember
  | object n cs rest ih ihrest =>
    obtain ⟨n', d, ds, rfl, hmember, hrestMembers⟩ := exists_cons_of_membersOf_eq hmembers
    rw [literalsTexts_append, literalsTexts_append] at htexts
    cases d with
    | object ds' =>
      obtain ⟨rfl, -, -, -, hinner⟩ := Member.nested.inj hmember
      obtain ⟨rfl, hrestTexts⟩ := ih hcs.1 hds.1 hinner htexts
      obtain ⟨rfl, hrest⟩ := ihrest hcs.2 hds.2 hrestMembers hrestTexts
      exact ⟨rfl, hrest⟩
    | scalar | array => exact Member.noConfusion hmember

end Content

/-! ### The lines of a program -/

namespace Program

/-- The lines of assignments can be told from the body. -/
theorem map_line_eq_of_statements_eq {as bs : List Assignment}
    (h : statements as = statements bs) :
    as.map Assignment.line = bs.map Assignment.line := by
  rcases as with - | ⟨a, as⟩ <;> rcases bs with - | ⟨b, bs⟩
  · rfl
  · exact absurd h (by simp [statements])
  · exact absurd h (by simp [statements])
  · exact (List.cons.inj h).2

/-- The declaration and the lines of the assignments can be told from the lines of a program. -/
theorem eq_of_lines_eq {below : BlockKind} {b c : Block} (hb : b.WellFormed below)
    (hc : c.WellFormed below) (hkind : b.kind = c.kind) {as bs : List Assignment}
    (h : lines b as = lines c bs) :
    b = c ∧ as.map Assignment.line = bs.map Assignment.line := by
  rw [lines_eq, lines_eq] at h
  obtain ⟨rfl, hbody⟩ := Block.lines_append_inj hb hc hkind (List.append_cancel_left h)
  exact ⟨rfl, map_line_eq_of_statements_eq (List.append_cancel_right hbody)⟩

end Program

/-! ### Programs and contents -/

namespace Json

variable (options : Options)

/-- Values of equal contents are declared alike. -/
theorem block_eq_iff (v w : Json) :
    v.block options = w.block options ↔
      Content.member.membersOf (.atDepth options.nestedLayout 1) v.contents =
        Content.member.membersOf (.atDepth options.nestedLayout 1) w.contents := by
  have hmembers : ∀ u : Json, (u.block options).members =
      Content.member.membersOf (.atDepth options.nestedLayout 1) u.contents :=
    fun u ↦ Content.ofMembers_eq_members _ u.members
  rw [← hmembers, ← hmembers]
  exact ⟨congrArg Block.members, fun h ↦ congrArg (Block.mk _ _) h⟩

/-- The assignments of values that are declared alike go to the same targets. -/
theorem map_target_assignments {v w : Json} (h : v.block options = w.block options) :
    (v.assignments options).map Assignment.target =
      (w.assignments options).map Assignment.target := by
  have htargets : ∀ u : Json, (u.assignments options).map Assignment.target =
      (u.block options).slots (C.identifier options.rootName) :=
    fun u ↦ Assignment.map_target_ofMembers _ _ _ u.members
  rw [htargets, htargets, h]

/-- **A program is a faithful embedding of its document.** When array elements are set to their
values, two values have the same program if and only if they have the same contents. -/
theorem program_eq_iff_contents_eq (h : options.arrayInitializer = .values) (v w : Json) :
    v.program options = w.program options ↔ v.contents = w.contents := by
  have hvalues : ∀ u : Json, (u.assignments options).map Assignment.value =
      Content.literals.literalsOf u.contents := by
    intro u
    rw [assignments, h]
    exact Content.map_value_ofMembers _ u.members
  constructor
  · intro hprogram
    have hlines := eq_of_unlines_eq (fun _ ↦ v.isLine_of_mem_lines options)
      (fun _ ↦ w.isLine_of_mem_lines options) hprogram
    obtain ⟨hblock, hassignments⟩ := Program.eq_of_lines_eq
      (Block.wellFormed_ofMembers options 0 options.rootName v.members)
      (Block.wellFormed_ofMembers options 0 options.rootName w.members) rfl hlines
    -- equal declarations have equal slots, so only the texts of literals are left in the lines
    have htexts := Assignment.map_cText_eq_of_map_line_eq
      (map_target_assignments options hblock) hassignments
    rw [hvalues, hvalues] at htexts
    exact (Content.eq_of_members_eq (Content.allWellFormed_contentsOf v.members)
      (Content.allWellFormed_contentsOf w.members) ((block_eq_iff options v w).1 hblock)
      (congrArg (· ++ []) htexts)).1
  · intro hcontents
    have hblock : v.block options = w.block options := by
      rw [block_eq_iff, hcontents]
    have hassignments : v.assignments options = w.assignments options := by
      refine Assignment.eq_of_map_eq (map_target_assignments options hblock) ?_
      rw [hvalues, hvalues, hcontents]
    rw [program, program, hblock, hassignments]

/-- Another spelling of a key or of a number and a dropped value leave the program as it is, but a
string is never taken for a number. -/
theorem program_eq_of_respelled :
    ({} : Options).arrayInitializer = .values ∧
      (object [("b-c", .number (.integer 1)), ("n", .null)]).program {} =
        (object [("b c", .number (.double ⟨false, Binary64.scale⟩))]).program {} ∧
      (object [("s", .string "1")]).program {} ≠
        (object [("s", .number (.integer 1))]).program {} := by
  -- the fraction is one, so it has the tag and the text of the integer
  have hone : (Number.double ⟨false, Binary64.scale⟩).tag = .int ∧
      (Number.double ⟨false, Binary64.scale⟩).cText = "1" := by
    decide +kernel
  have htag : (number (.double ⟨false, Binary64.scale⟩)).scalarTag? = some .int :=
    congrArg some hone.1
  have hname : C.identifier "b-c" = C.identifier "b c" := by decide
  refine ⟨rfl, (program_eq_iff_contents_eq {} rfl _ _).2 ?_, fun h ↦ ?_⟩
  · rw [contents, contents, members, members, contentsOf_scalar "b-c" _ (t := .int) rfl,
      contentsOf_scalar "b c" _ htag, contentsOf_dropped "n" _ rfl, hname, Literal.ofJson,
      Literal.ofJson, hone.2]
    rfl
  · have hcontents := (program_eq_iff_contents_eq {} rfl _ _).1 h
    exact absurd hcontents (by simp [contents, members, content.contentsOf, content, tag,
      Literal.ofJson, Number.tag])

end Json

end JsonEmbed
