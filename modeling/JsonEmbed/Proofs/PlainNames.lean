import JsonEmbed.Proofs.OutputNames

/-!
# When an output stays in its directory

The name of an output is meant to be a plain file name, so that below a directory it stays in this
directory. What it begins with is the part of the document's file name before the first dot, or the
stem if there is no such part (`Conversion.base`). Neither holds a slash. A path without a file name
is used as it is, though, directories and all: `a/..` becomes `a/.c`, and `/` becomes `/.c`.

`Conversion.outputName_stays_iff` says for which names this, or a name that is nothing but two dots,
makes an output go astray. The first kind is about the document's name alone
(`Conversion.KeepsSlash`). The second needs an extension that is empty or a dot
(`Conversion.IsParent`), which no format has.
-/

namespace JsonEmbed

namespace Path

/-! ### Paths below a directory -/

/-- The path names the directory or an entry of it. -/
def Within (directory path : String) : Prop :=
  components path = components directory ∨
    ∃ name, components path = components directory ++ [.name name]

/-- The components of a path go on after a slash. -/
theorem components_of_slash {path longer : String} {rest : List Char} (hpath : path ≠ "")
    (h : longer.toList = path.toList ++ '/' :: rest) :
    components longer = components path ++ (splitOn '/' rest).filterMap (component? false) := by
  by_cases hroot : path.toList.head? = some '/'
  · obtain ⟨cs, hcs⟩ := List.head?_eq_some_iff.1 hroot
    have hlonger : longer.toList = '/' :: (cs ++ '/' :: rest) := by rw [h, hcs, List.cons_append]
    rw [components_root hcs, components_root hlonger, splitOn_append_cons, List.filterMap_append,
      List.cons_append]
  · have hrelative : longer.toList.head? ≠ some '/' := by
      rwa [h, List.head?_append_of_ne_nil _ (mt String.toList_eq_nil_iff.1 hpath)]
    rcases hsplit : splitOn '/' path.toList with - | ⟨piece, pieces⟩
    · exact absurd hsplit (splitOn_ne_nil '/' path.toList)
    have hlonger : splitOn '/' longer.toList = piece :: (pieces ++ splitOn '/' rest) := by
      rw [h, splitOn_append_cons, hsplit, List.cons_append]
    rw [components_relative hroot hsplit, components_relative hrelative hlonger,
      List.filterMap_append, List.append_assoc]

/-- A name without a slash adds its own component, if it has one, to those of the directory. -/
theorem components_join {directory name : String} (hdirectory : directory ≠ "")
    (hname : '/' ∉ name.toList) :
    components (join directory name) =
      components directory ++ (component? false name.toList).toList := by
  have hpieces : (splitOn '/' name.toList).filterMap (component? false) =
      (component? false name.toList).toList := by
    rw [splitOn_of_not_mem hname, List.filterMap_cons, List.filterMap_nil]
    cases component? false name.toList <;> rfl
  rcases join_cases hdirectory with ⟨hroot, hjoin⟩ | ⟨front, hfront, hends, hjoin⟩
  · rw [components_root (hjoin name hname), components_root hroot, hpieces]
    rfl
  · have hsame : components directory = components front := by
      rcases hends with rfl | hends
      · rfl
      · exact (components_of_slash hfront hends).trans (List.append_nil _)
    rw [components_of_slash hfront (hjoin name hname), hpieces, hsame]

/-- A piece that is not at the front is passed over, leads back, or is a name. -/
theorem component?_cases (piece : List Char) :
    ((piece = [] ∨ piece = ['.']) ∧ component? false piece = none) ∨
      (piece = ['.', '.'] ∧ component? false piece = some .parent) ∨
      (Names piece ∧ component? false piece = some (.name (String.ofList piece))) := by
  by_cases hempty : piece = []
  · exact .inl ⟨.inl hempty, by rw [hempty]; rfl⟩
  by_cases hdot : piece = ['.']
  · exact .inl ⟨.inr hdot, by rw [hdot]; rfl⟩
  by_cases hdots : piece = ['.', '.']
  · exact .inr (.inl ⟨hdots, by rw [hdots]; rfl⟩)
  · have hnames : Names piece := ⟨hempty, hdot, hdots⟩
    exact .inr (.inr ⟨hnames, component?_of_names hnames⟩)

/-- Of the names without a slash, only two dots lead out of a directory. -/
theorem within_join_iff {directory name : String} (hdirectory : directory ≠ "")
    (hname : '/' ∉ name.toList) : Within directory (join directory name) ↔ name ≠ ".." := by
  have hdots : name = ".." ↔ name.toList = ['.', '.'] := String.toList_inj.symm
  rw [Within, components_join hdirectory hname, ne_eq, hdots]
  rcases component?_cases name.toList with ⟨hpiece, h⟩ | ⟨hpiece, h⟩ | ⟨hpiece, h⟩ <;> rw [h]
  · refine iff_of_true (.inl (List.append_nil _)) ?_
    rcases hpiece with hpiece | hpiece <;> rw [hpiece] <;> decide
  · refine iff_of_false ?_ (not_not_intro hpiece)
    simp
  · exact iff_of_true (.inr ⟨_, rfl⟩) hpiece.2.2

end Path

namespace Conversion

/-! ### What an output's name begins with -/

theorem dot_not_mem_beforeDot (text : String) : '.' ∉ beforeDot text := by
  intro hdot
  simpa using List.mem_takeWhile_imp hdot

theorem beforeDot_eq_nil_iff {text : String} :
    beforeDot text = [] ↔ text = "" ∨ text.toList.head? = some '.' := by
  rw [beforeDot, ← String.toList_eq_nil_iff]
  rcases text.toList with - | ⟨c, cs⟩
  · simp
  · by_cases hc : c = '.' <;> simp [hc]

theorem base_of_none {input : String} (h : Path.fileName? input = none) :
    base input = if beforeDot input = [] then input else String.ofList (beforeDot input) := by
  rw [base, h]
  simp only [Option.getD_none, h, Option.map_none]

/-- A slash is left in what is kept of a path without a file name: it comes before the first dot,
or the path begins with a dot and is kept as a whole. -/
def KeepsSlash (input : String) : Prop :=
  Path.fileName? input = none ∧
    ('/' ∈ beforeDot input ∨ input.toList.head? = some '.' ∧ '/' ∈ input.toList)

instance (input : String) : Decidable (KeepsSlash input) :=
  inferInstanceAs (Decidable (_ ∧ _))

theorem slash_mem_base_iff (input : String) : '/' ∈ (base input).toList ↔ KeepsSlash input := by
  rw [KeepsSlash]
  rcases h : Path.fileName? input with - | name
  · rw [base_of_none h]
    split
    · next hbefore =>
      rw [hbefore]
      rcases beforeDot_eq_nil_iff.1 hbefore with rfl | hhead
      · simp
      · simp [hhead]
    · next hbefore =>
      obtain ⟨-, hhead⟩ := not_or.1 (mt beforeDot_eq_nil_iff.2 hbefore)
      simp [hhead]
  · refine iff_of_false ?_ (by simp)
    exact slash_not_mem_base h

theorem base_eq_empty_iff (input : String) : base input = "" ↔ input = "" := by
  rcases h : Path.fileName? input with - | name
  · rw [base_of_none h]
    split
    · rfl
    · next hbefore =>
      refine iff_of_false (by simpa using hbefore) ?_
      rintro rfl
      exact hbefore rfl
  · have hname : name ≠ "" := fun hempty ↦
      (Path.isFileName_of_fileName? h).names.1 (String.toList_eq_nil_iff.2 hempty)
    have hinput : input ≠ "" := by
      rintro rfl
      exact absurd ((show Path.fileName? "" = none by decide).symm.trans h) (by simp)
    refine iff_of_false ?_ hinput
    rw [base_of_fileName? h]
    split
    · exact Path.stem_ne_empty hname
    · simpa using ‹_›

/-- A file name has a dot for its stem if it is two dots and more, without a dot. -/
theorem stem_eq_dot_iff {name : String} (h : Path.IsFileName name) :
    beforeDot name = [] ∧ Path.stem name = "." ↔
      ∃ x : String, name = ".." ++ x ∧ '.' ∉ x.toList := by
  have hdots : name ≠ ".." := fun hname ↦ h.names.2.2 (by rw [hname]; rfl)
  constructor
  · rintro ⟨hbefore, hstem⟩
    have hdot : '.' ∈ name.toList := by
      rcases beforeDot_eq_nil_iff.1 hbefore with rfl | hhead
      · exact absurd rfl h.names.1
      · exact List.mem_of_head? hhead
    obtain ⟨front, last, hsplit, hlast⟩ := Path.exists_last_dot hdot
    rw [Path.stem_of_last hdots hsplit hlast] at hstem
    split at hstem
    · exact absurd (congrArg String.toList hstem) h.names.2.1
    · have hfront : front = ['.'] := by
        rw [← String.toList_ofList (l := front), hstem]
        rfl
      refine ⟨String.ofList last, String.toList_inj.1 ?_, by rwa [String.toList_ofList]⟩
      rw [hsplit, hfront, String.toList_append, String.toList_ofList (l := last)]
      rfl
  · rintro ⟨x, hname, hx⟩
    have hsplit : name.toList = ['.'] ++ '.' :: x.toList := by
      rw [hname, String.toList_append]
      rfl
    refine ⟨beforeDot_eq_nil_iff.2 (.inr (by rw [hsplit]; rfl)), ?_⟩
    rw [Path.stem_of_last hdots hsplit hx]
    rfl

theorem base_eq_dot_iff (input : String) :
    base input = "." ↔
      input = "." ∨ ∃ x : String, Path.fileName? input = some (".." ++ x) ∧ '.' ∉ x.toList := by
  have hkept : ∀ text : String, String.ofList (beforeDot text) ≠ "." := by
    intro text h
    have hbefore : beforeDot text = ['.'] := by
      rw [← String.toList_ofList (l := beforeDot text), h]
      rfl
    exact dot_not_mem_beforeDot text (hbefore ▸ List.mem_cons_self)
  rcases h : Path.fileName? input with - | name
  · rw [base_of_none h]
    simp only [reduceCtorEq, false_and, exists_false, or_false]
    split
    · rfl
    · next hbefore =>
      refine iff_of_false (hkept input) ?_
      rintro rfl
      exact hbefore rfl
  · have hinput : input ≠ "." := by
      rintro rfl
      exact absurd ((show Path.fileName? "." = none by decide).symm.trans h) (by simp)
    have hstem := stem_eq_dot_iff (Path.isFileName_of_fileName? h)
    simp only [hinput, false_or, Option.some.injEq, ← hstem, base_of_fileName? h]
    split
    · next hbefore => simp [hbefore]
    · next hbefore => simp [hbefore, hkept name]

/-- Nothing but two dots is left: of no document with an extension that is a dot, or of a document
that gives a dot with no extension. -/
def IsParent (input extension : String) : Prop :=
  input = "" ∧ extension = "." ∨
    extension = "" ∧
      (input = "." ∨ ∃ x : String, Path.fileName? input = some (".." ++ x) ∧ '.' ∉ x.toList)

theorem outputName_eq_parent_iff (input extension : String) :
    outputName input extension = ".." ↔ IsParent input extension := by
  rw [IsParent, ← base_eq_dot_iff, ← base_eq_empty_iff, outputName_eq]
  simp only [← String.toList_inj, String.toList_append]
  rcases (base input).toList with - | ⟨c, - | ⟨d, cs⟩⟩
  · simp
  · simp [and_comm]
  · simp

/-! ### Staying in a directory -/

/-- **When the name of an output is a plain file name.** It holds a slash exactly if one is kept of
the document's path. It holds none and stays in every directory that it is put in, exactly if in
addition it is not the name of the directory above. -/
theorem outputName_stays_iff (input extension : String) (hextension : '/' ∉ extension.toList) :
    ('/' ∉ (outputName input extension).toList ↔ ¬KeepsSlash input) ∧
    ('/' ∉ (outputName input extension).toList ∧
        (∀ directory, directory ≠ "" →
          Path.Within directory (Path.join directory (outputName input extension))) ↔
      ¬KeepsSlash input ∧ ¬IsParent input extension) := by
  have hslash : '/' ∉ (outputName input extension).toList ↔ ¬KeepsSlash input := by
    rw [← slash_mem_base_iff, outputName_eq]
    simp [hextension]
  refine ⟨hslash, ?_⟩
  rw [← outputName_eq_parent_iff, ← hslash]
  refine and_congr_right fun hname ↦ ⟨fun hstays ↦ ?_, fun hparent directory hdirectory ↦ ?_⟩
  · have hdirectory : "x" ≠ "" := by decide
    exact (Path.within_join_iff hdirectory hname).1 (hstays "x" hdirectory)
  · exact (Path.within_join_iff hdirectory hname).2 hparent

/-- Slashes at the end do not count, and a dot at the front of a file name is kept. -/
theorem outputName_stays_iff_hidden :
    '/' ∉ "c".toList ∧ outputName "dir/.env.json/" "c" = ".env.c" ∧
      '/' ∉ ".env.c".toList ∧ Path.Within "out" (Path.join "out" ".env.c") := by
  have hname : outputName "dir/.env.json/" "c" = ".env.c" := by decide
  have hparent : ¬IsParent "dir/.env.json/" "c" := by
    rintro (⟨-, h⟩ | ⟨h, -⟩) <;> exact absurd h (by decide)
  obtain ⟨hslash, hstays⟩ :=
    (outputName_stays_iff "dir/.env.json/" "c" (by decide)).2.2 ⟨by decide, hparent⟩
  rw [hname] at hslash hstays
  exact ⟨by decide, hname, hslash, hstays "out" (by decide)⟩

/-- Outputs that go astray: into a directory below, to the root, and with no extension into the
directory above. -/
theorem exists_astray :
    (outputName "a/.." "c" = "a/.c" ∧ '/' ∉ "c".toList ∧ '/' ∈ "a/.c".toList ∧
      ¬Path.Within "out" (Path.join "out" "a/.c")) ∧
    (outputName "/" "c" = "/.c" ∧ Path.join "out" "/.c" = "/.c" ∧
      ¬Path.Within "out" (Path.join "out" "/.c")) ∧
    (outputName "." "" = ".." ∧ ¬Path.Within "out" (Path.join "out" "..")) := by
  have hbelow : Path.components (Path.join "out" "a/.c") =
      [.name "out", .name "a", .name ".c"] := by decide
  have hroot : Path.components (Path.join "out" "/.c") = [.root, .name ".c"] := by decide
  have habove : Path.components (Path.join "out" "..") = [.name "out", .parent] := by decide
  have hout : Path.components "out" = [.name "out"] := by decide
  refine ⟨⟨by decide, by decide, by decide, ?_⟩, ⟨by decide, by decide, ?_⟩, by decide, ?_⟩
  · simp [Path.Within, hbelow, hout]
  · simp [Path.Within, hroot, hout]
  · simp [Path.Within, habove, hout]

end Conversion

end JsonEmbed
