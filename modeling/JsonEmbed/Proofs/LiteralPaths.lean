import JsonEmbed.CommandLine.Inputs
import JsonEmbed.Proofs.Expansions

/-!
# Files that are given literally

The path of a file is an input that stands for this file (`Inputs.literal_path_is_read`): itself, if
it has none of the characters that make a pattern, and otherwise as what it means as a pattern. A
brace makes a pattern without a meaning of its own, so nothing else is read. An asterisk or a
question mark may mean other files as well; they do not exactly if no other name that is there fits.

Brackets mean one of the characters between them, so a path with brackets may stand for another file
instead (`Inputs.exists_misread`).
-/

namespace JsonEmbed

namespace FileSystem

variable {fs : FileSystem} {path : String} {bytes : Bytes}

/-! ### Paths that lead to files -/

/-- The pieces of a path lie between its slashes. -/
theorem mem_start {piece : List Char} (h : piece ∈ (fs.start path).2) :
    ∃ cs, cs <:+: path.toList ∧ piece ∈ splitOn '/' cs := by
  by_cases hroot : path.toList.head? = some '/'
  · obtain ⟨cs, hcs⟩ := List.head?_eq_some_iff.1 hroot
    rw [start_root hcs] at h
    exact ⟨cs, hcs ▸ (List.suffix_cons '/' cs).isInfix, h⟩
  · rw [start_relative hroot] at h
    exact ⟨path.toList, List.infix_rfl, h⟩

theorem isInfix_of_mem_start {piece : List Char} (h : piece ∈ (fs.start path).2) :
    piece <:+: path.toList := by
  obtain ⟨cs, hcs, hpiece⟩ := mem_start h
  exact (isInfix_of_mem_splitOn hpiece).trans hcs

theorem slash_not_mem_of_mem_start {piece : List Char} (h : piece ∈ (fs.start path).2) :
    '/' ∉ piece := by
  obtain ⟨cs, -, hpiece⟩ := mem_start h
  exact fun hmem ↦ (mem_of_mem_splitOn hpiece '/' hmem).2 rfl

/-- A path that is read leads to a file. -/
theorem walksTo_of_read (h : fs.read path = .ok bytes) :
    path ≠ "" ∧ ∃ q, fs.WalksTo (fs.start path).1 (fs.start path).2 q ∧
      fs.get? q = some (.file bytes) := by
  obtain ⟨q, hplace, hq⟩ := exists_place_of_read h
  rw [place] at hplace
  split at hplace
  · exact absurd hplace (by simp)
  · next hpath =>
    refine ⟨fun hnil ↦ hpath (String.isEmpty_iff.2 hnil), q, ⟨hplace, ?_⟩, hq⟩
    rw [hq]
    exact Option.some_ne_none _

/-- The last piece of a path to a file is not empty: it would lead to a directory. -/
theorem last_ne_nil_of_read (h : fs.read path = .ok bytes) {here : Place}
    {before : List (List Char)} {piece : List Char}
    (hstart : fs.start path = (here, before ++ [piece])) : piece ≠ [] := by
  rintro rfl
  obtain ⟨-, q, hwalks, hq⟩ := walksTo_of_read h
  have hwalk := hwalks.walk
  rw [hstart, walk_concat] at hwalk
  obtain ⟨next, -, hstep⟩ := exists_of_bind_eq_ok hwalk
  have hdirectory := get?_of_step hstep
  rw [eq_of_step (.inl rfl) hstep, hq] at hdirectory
  exact absurd hdirectory (by simp)

theorem Reaches.read {q : Place} (h : fs.Reaches path q) (hq : fs.get? q = some (.file bytes)) :
    fs.read path = .ok bytes := by
  simp only [FileSystem.read, FileSystem.find, h.place, bind, Except.bind, hq]

end FileSystem

namespace PathPattern

open FileSystem

variable {fs : FileSystem} {path : String} {piece : List Char}

/-! ### Starting from the origin of a path -/

/-- A relative path begins with a piece that is not empty, and not a dot either unless its first
component is the working directory. -/
theorem exists_first_piece (hpath : path ≠ "") (hroot : path.toList.head? ≠ some '/')
    (hcurrent : (Path.components path).head? ≠ some .current) :
    ∃ first rest, splitOn '/' path.toList = first :: rest ∧ first ≠ [] ∧
      Path.component? true first ≠ some .current := by
  obtain ⟨rest, hsplit⟩ := exists_splitOn_eq '/' path.toList
  refine ⟨_, rest, hsplit, ?_, fun hfirst ↦ hcurrent ?_⟩
  · obtain ⟨c, cs, hcs⟩ := List.exists_cons_of_ne_nil (mt String.toList_eq_nil_iff.1 hpath)
    have hc : c ≠ '/' := fun hc ↦ hroot (by rw [hcs, hc]; rfl)
    rw [hcs, List.takeWhile_cons_of_pos (by simpa using hc)]
    exact List.cons_ne_nil _ _
  · rw [Path.components_relative hroot hsplit, hfirst]
    rfl

/-- The working directory leaves no trace in the first piece of a path. -/
theorem extend_dot (name : String) : extend "." name = name :=
  if_pos (by decide)

theorem originOf_root {cs : List Char} (h : path.toList = '/' :: cs) : originOf path = "/" :=
  if_pos (by rw [h]; rfl)

theorem originOf_relative (h : path.toList.head? ≠ some '/') : originOf path = "." :=
  if_neg h

/-- What a path leads to is reached from its origin. -/
theorem reaches_originOf {q : Place}
    (hwalks : fs.WalksTo (fs.start path).1 (fs.start path).2 q) :
    fs.Reaches (originOf path) (fs.start path).1 := by
  by_cases hroot : path.toList.head? = some '/'
  · obtain ⟨cs, hcs⟩ := List.head?_eq_some_iff.1 hroot
    rw [originOf_root hcs, start_root hcs]
    exact ⟨by decide, rfl, Option.some_ne_none _, fun hcurrent ↦ absurd hcurrent (by decide)⟩
  · rw [start_relative hroot] at hwalks ⊢
    rw [originOf_relative hroot]
    obtain ⟨first, rest, hsplit⟩ := List.exists_cons_of_ne_nil (splitOn_ne_nil '/' path.toList)
    rw [hsplit] at hwalks
    obtain ⟨next, hsteps, -⟩ := walksTo_cons_iff.1 hwalks
    have hhome : fs.get? fs.workingDirectory = some .directory := get?_of_step hsteps.step
    refine ⟨by decide, ?_, by simp [hhome], fun _ ↦ rfl⟩
    have hstep : fs.step fs.workingDirectory ['.'] = .ok fs.workingDirectory := by
      rw [step, hhome]
      rfl
    exact (walk_singleton fs fs.workingDirectory ['.']).trans hstep

/-- The path of the pieces of a path from its origin. -/
def respelled (fs : FileSystem) (path : String) : String :=
  alongWay (originOf path) ((fs.start path).2.map String.ofList)

/-- **A path that leads somewhere is among those that it stands for as a pattern.** The path found
says the same and leads to the same place. -/
theorem respelled_mem_expand (hpath : path ≠ "")
    (hcurrent : (Path.components path).head? ≠ some .current) {q : Place}
    (hwalks : fs.WalksTo (fs.start path).1 (fs.start path).2 q) :
    respelled fs path ∈ expand fs ((fs.start path).2.map .ofPiece) (originOf path) ∧
      fs.Reaches (respelled fs path) q ∧
      Path.components (respelled fs path) = Path.components path := by
  have horigin := reaches_originOf hwalks
  have hslash : ∀ piece ∈ (fs.start path).2, '/' ∉ piece :=
    fun _ ↦ slash_not_mem_of_mem_start
  by_cases hroot : path.toList.head? = some '/'
  · obtain ⟨cs, hcs⟩ := List.head?_eq_some_iff.1 hroot
    rw [originOf_root hcs, start_root hcs] at horigin
    rw [start_root hcs] at hwalks hslash
    rw [respelled, originOf_root hcs, start_root hcs, Path.components_root hcs]
    exact alongWay_mem_expand hslash (by decide) horigin hwalks
  · obtain ⟨first, rest, hsplit, hfirst, hdot⟩ := exists_first_piece hpath hroot hcurrent
    rw [start_relative hroot, hsplit] at hwalks hslash
    rw [start_relative hroot, originOf_relative hroot] at horigin
    obtain ⟨hfirst', hrest⟩ := List.forall_mem_cons.1 hslash
    obtain ⟨next, hsteps, hlater⟩ := walksTo_cons_iff.1 hwalks
    have hempty : first = [] → Path.components "." ≠ [.current] := fun hnil ↦ absurd hnil hfirst
    have hbegun := self_mem_nexts horigin hfirst' hempty hsteps
    have hreaches := horigin.extend hfirst' hempty hsteps
    rw [extend_dot] at hbegun hreaches
    have hcurrent' : (Path.components (String.ofList first)).head? ≠ some .current := by
      rwa [Path.components_ofList hfirst', Option.head?_toList]
    obtain ⟨hmem, hreaches', hsame⟩ := alongWay_mem_expand hrest hcurrent' hreaches hlater
    rw [respelled, originOf_relative hroot, start_relative hroot, hsplit, List.map_cons,
      List.map_cons, alongWay_cons, extend_dot]
    refine ⟨?_, hreaches', ?_⟩
    · rw [expand_cons, List.mem_flatMap]
      exact ⟨_, hbegun, hmem⟩
    · rw [hsame, Path.components_ofList hfirst', Path.components_relative hroot hsplit]

/-- What is joined after a first part comes with a separator each. -/
theorem joinWith_cons_eq (separator : Char) (first : List Char) (rest : List (List Char)) :
    joinWith separator (first :: rest) = first ++ rest.flatMap (separator :: ·) := by
  induction rest generalizing first with
  | nil =>
    rw [List.flatMap_nil, List.append_nil]
    rfl
  | cons next rest ih =>
    rw [joinWith_cons separator first (by simp), ih, List.flatMap_cons, List.cons_append]

theorem getLast?_append_ne {front piece : List Char} (hpiece : piece ≠ []) (hslash : '/' ∉ piece) :
    (front ++ piece).getLast? ≠ some '/' := by
  obtain ⟨c, hc⟩ := Option.ne_none_iff_exists'.1 (mt List.getLast?_eq_none_iff.1 hpiece)
  rw [List.getLast?_append, hc, Option.some_or, ← hc]
  exact fun hlast ↦ hslash (List.mem_of_getLast? hlast)

/-- Pieces that are not empty are put behind slashes. -/
theorem toList_alongWay {pieces : List (List Char)} (hpath : path ≠ "")
    (hcurrent : (Path.components path).head? ≠ some .current)
    (hend : path.toList.getLast? ≠ some '/')
    (hpieces : ∀ piece ∈ pieces, piece ≠ [] ∧ '/' ∉ piece) :
    (alongWay path (pieces.map String.ofList)).toList =
      path.toList ++ pieces.flatMap ('/' :: ·) := by
  induction pieces generalizing path with
  | nil => exact (List.append_nil _).symm
  | cons piece pieces ih =>
    obtain ⟨⟨hpiece, hslash⟩, hrest⟩ := List.forall_mem_cons.1 hpieces
    have hjoin : (Path.join path (String.ofList piece)).toList = path.toList ++ '/' :: piece := by
      rw [Path.join, if_neg (Path.head?_ofList_ne hslash), if_neg (by simp [hpath, hend])]
      simp
    have hpath' := Path.join_ne_empty hpath (Path.slash_not_mem_ofList hslash)
    have hend' : (Path.join path (String.ofList piece)).toList.getLast? ≠ some '/' := by
      rw [hjoin, List.append_cons]
      exact getLast?_append_ne hpiece hslash
    have hcurrent' := Path.head?_components_join hpath hslash hcurrent
    rw [List.map_cons, alongWay_cons, extend_eq_join hcurrent, ih hpath' hcurrent' hend' hrest,
      hjoin, List.flatMap_cons, List.append_assoc]

/-- A path without empty pieces is found as it is. -/
theorem respelled_eq_self (hpath : path ≠ "")
    (hcurrent : (Path.components path).head? ≠ some .current)
    (hpieces : [] ∉ (fs.start path).2) : respelled fs path = path := by
  -- from the first piece on, the path found is put together as the path is
  have hrest : ∀ (front first : List Char) (rest : List (List Char)),
      path.toList = front ++ joinWith '/' (first :: rest) →
      (∀ piece ∈ first :: rest, piece ≠ [] ∧ '/' ∉ piece) →
      (Path.components (String.ofList (front ++ first))).head? ≠ some .current →
      alongWay (String.ofList (front ++ first)) (rest.map String.ofList) = path := by
    intro front first rest hsplit hparts hcurrent
    obtain ⟨⟨hfirst, hslash⟩, hrest⟩ := List.forall_mem_cons.1 hparts
    have hend : (String.ofList (front ++ first)).toList.getLast? ≠ some '/' := by
      rw [String.toList_ofList]
      exact getLast?_append_ne hfirst hslash
    rw [← String.toList_inj, toList_alongWay (by simp [hfirst]) hcurrent hend hrest, hsplit,
      joinWith_cons_eq, String.toList_ofList, List.append_assoc]
  have hparts : ∀ piece ∈ (fs.start path).2, piece ≠ [] ∧ '/' ∉ piece :=
    fun piece hpiece ↦ ⟨fun hnil ↦ hpieces (hnil ▸ hpiece), slash_not_mem_of_mem_start hpiece⟩
  by_cases hroot : path.toList.head? = some '/'
  · obtain ⟨cs, hcs⟩ := List.head?_eq_some_iff.1 hroot
    obtain ⟨first, rest, hsplit⟩ := List.exists_cons_of_ne_nil (splitOn_ne_nil '/' cs)
    rw [start_root hcs, hsplit] at hparts
    rw [respelled, originOf_root hcs, start_root hcs, hsplit, List.map_cons, alongWay_cons]
    have hbegun : extend "/" (String.ofList first) = String.ofList (['/'] ++ first) := by
      have hrelative := Path.head?_ofList_ne (hparts first List.mem_cons_self).2
      rw [extend, if_neg (by decide), Path.join, if_neg hrelative, if_pos (.inr (by decide)),
        ← String.toList_inj]
      simp
    rw [hbegun]
    refine hrest ['/'] first rest ?_ hparts ?_
    · rw [← hsplit, joinWith_splitOn, hcs, List.singleton_append]
    · have hchars : (String.ofList (['/'] ++ first)).toList = '/' :: first := by
        rw [String.toList_ofList, List.singleton_append]
      rw [Path.components_root hchars]
      exact fun hhead ↦ Path.Component.noConfusion (Option.some.inj hhead)
  · obtain ⟨first, rest, hsplit, -, hdot⟩ := exists_first_piece hpath hroot hcurrent
    rw [start_relative hroot, hsplit] at hparts
    rw [respelled, originOf_relative hroot, start_relative hroot, hsplit, List.map_cons,
      alongWay_cons, extend_dot]
    refine hrest [] first rest ?_ hparts ?_
    · rw [← hsplit, joinWith_splitOn, List.nil_append]
    · rwa [List.nil_append, Path.components_ofList (hparts first List.mem_cons_self).2,
        Option.head?_toList]

end PathPattern

namespace FileSystem

variable {fs : FileSystem} {path : String}

/-! ### What is meant besides -/

/-- Of all that is there, a path that is read as a pattern means itself only. -/
def MeansOnly (fs : FileSystem) (path : String) : Prop :=
  ∀ names q, List.Forall₂ Means (fs.start path).2 names →
    fs.WalksTo (fs.start path).1 (names.map String.toList) q →
      names = (fs.start path).2.map String.ofList

theorem meansOnly_of_not_hasWildcard (h : ¬HasWildcard path.toList) : fs.MeansOnly path := by
  refine fun names q hnames _ ↦ eq_of_forall₂_means (fun piece hpiece ↦ ?_) hnames
  exact fun hwildcard ↦ h (hwildcard.of_isInfix (isInfix_of_mem_start hpiece))

end FileSystem

namespace Inputs

open PathPattern

variable {fs : FileSystem} {path : String} {bytes : Bytes}

/-! ### What is read for a path -/

theorem resolve_singleton (fs : FileSystem) (input : String) :
    resolve fs [input] = pathsOf fs input := by
  rw [resolve, resolve]
  cases pathsOf fs input with
  | error e => rfl
  | ok paths =>
    show Except.ok (paths ++ []) = Except.ok paths
    rw [List.append_nil]

theorem documents_singleton (hread : fs.read path = .ok bytes) {input : String}
    (hpaths : resolve fs [input] = .ok [path]) :
    documents fs [input] = .ok [⟨path, bytes⟩] := by
  rw [documents, hpaths]
  show readAll fs [path] = _
  rw [readAll, hread]
  rfl

theorem isPattern_of_hasWildcard (h : HasWildcard path.toList) : isPattern path = true := by
  rw [isPattern, List.any_eq_true]
  rcases h with h | h
  · exact ⟨'*', h, rfl⟩
  · exact ⟨'?', h, rfl⟩

/-- A path that is read as a pattern stands for what its pieces lead to. -/
theorem pathsOf_eq_expand (hread : fs.read path = .ok bytes) (hplainly : Plainly path.toList)
    (hpattern : isPattern path = true)
    (hsome : expand fs ((fs.start path).2.map .ofPiece) (originOf path) ≠ []) :
    pathsOf fs path = .ok (expand fs ((fs.start path).2.map .ofPiece) (originOf path)) := by
  obtain ⟨here, before, piece, hstart⟩ := fs.exists_start path
  have hpiece := FileSystem.last_ne_nil_of_read hread hstart
  have hpieces := congrArg Prod.snd hstart
  rw [pathsOf, if_pos hpattern, PathPattern.read_eq hplainly hstart hpiece]
  rw [hpieces] at hsome ⊢
  exact if_neg hsome

/-- **A file that is given literally is read.** If a path that does not begin with the working
directory leads to a file, and has no brackets and no two asterisks in a row, the input can be
resolved, and one of the paths is found to lead to this file: the path itself, up to repeated
slashes in a pattern. Without asterisks and question marks it is the only one. With them it is the
only one if and only if nothing else that is there fits, piece by piece. If it is the only one, this
file is the only document. -/
theorem literal_path_is_read (hread : fs.read path = .ok bytes)
    (hcurrent : (Path.components path).head? ≠ some .current) (hplainly : Plainly path.toList) :
    ∃ found paths, resolve fs [path] = .ok paths ∧ found ∈ paths ∧
      fs.read found = .ok bytes ∧ Path.components found = Path.components path ∧
      (isPattern path = false ∨ [] ∉ (fs.start path).2 → found = path) ∧
      (¬HasWildcard path.toList → paths = [found]) ∧
      (fs.IsProper → [] ∉ (fs.start path).2 → (paths = [found] ↔ fs.MeansOnly path)) ∧
      (paths = [found] → documents fs [path] = .ok [⟨found, bytes⟩]) := by
  have hdocuments : ∀ {found paths}, resolve fs [path] = .ok paths → fs.read found = .ok bytes →
      paths = [found] → documents fs [path] = .ok [⟨found, bytes⟩] := by
    rintro found _ hresolve hfound rfl
    exact documents_singleton hfound hresolve
  by_cases hpattern : isPattern path = true
  · obtain ⟨hpath, q, hwalks, hq⟩ := FileSystem.walksTo_of_read hread
    obtain ⟨hmem, hreaches, hsame⟩ := respelled_mem_expand hpath hcurrent hwalks
    have hresolve := (resolve_singleton fs path).trans
      (pathsOf_eq_expand hread hplainly hpattern (List.ne_nil_of_mem hmem))
    have hfound := hreaches.read hq
    have hone := eq_singleton_iff_of_mem hmem
    refine ⟨respelled fs path, _, hresolve, hmem, hfound, hsame, fun hkept ↦ ?_, fun hnone ↦ ?_,
      fun hfs hpieces ↦ ?_, hdocuments hresolve hfound⟩
    · exact respelled_eq_self hpath hcurrent (hkept.resolve_left (by simp [hpattern]))
    · have hpos := List.length_pos_of_mem hmem
      refine hone.2 (le_antisymm (length_expand_le_one fun piece hpiece ↦ ?_) hpos)
      exact fun h ↦ hnone (h.of_isInfix (FileSystem.isInfix_of_mem_start hpiece))
    · rw [hone]
      refine length_expand_eq_one_iff hfs (reaches_originOf hwalks) (fun piece hpiece ↦ ?_) hwalks
      exact ⟨fun hnil ↦ hpieces (hnil ▸ hpiece), FileSystem.slash_not_mem_of_mem_start hpiece⟩
  · have hpaths : pathsOf fs path = .ok [path] := if_neg hpattern
    have hresolve := (resolve_singleton fs path).trans hpaths
    have hnone : ¬HasWildcard path.toList := mt isPattern_of_hasWildcard hpattern
    exact ⟨path, [path], hresolve, List.mem_cons_self, hread, rfl, fun _ ↦ rfl, fun _ ↦ rfl,
      fun _ _ ↦ iff_of_true rfl (FileSystem.meansOnly_of_not_hasWildcard hnone),
      hdocuments hresolve hread⟩

/-- A brace makes no difference, and a question mark makes none where nothing else fits. -/
theorem literal_path_is_read_alone :
    let fs : FileSystem := ⟨["home"], [(["home"], .directory),
      (["home", "b?.json"], .file [0x7b, 0x7d]), (["home", "c.json"], .file []),
      (["home", "v\x7b1\x7d.json"], .file [0x5b, 0x5d])]⟩
    (isPattern "v\x7b1\x7d.json" = true ∧
      resolve fs ["v\x7b1\x7d.json"] = .ok ["v\x7b1\x7d.json"] ∧
      documents fs ["v\x7b1\x7d.json"] = .ok [⟨"v\x7b1\x7d.json", [0x5b, 0x5d]⟩]) ∧
      fs.IsProper ∧ fs.MeansOnly "b?.json" ∧ resolve fs ["b?.json"] = .ok ["b?.json"] ∧
        documents fs ["b?.json"] = .ok [⟨"b?.json", [0x7b, 0x7d]⟩] := by
  intro fs
  have hfs : fs.IsProper :=
    ⟨FileSystem.isTree_of_entries (by decide), by decide, by decide⟩
  have honly : fs.MeansOnly "b?.json" := by
    intro names q hnames hwalks
    rw [show (fs.start "b?.json").2 = ["b?.json".toList] from rfl] at hnames ⊢
    cases hnames with
    | @cons _ name _ _ hmeans hnil =>
      cases hnil
      rw [Means, if_pos (by decide)] at hmeans
      obtain ⟨hfits, hname⟩ := hmeans
      have hfile := hname.resolve_right fun hdots ↦ absurd hdots.1 (by decide)
      obtain ⟨next, hsteps, -⟩ := FileSystem.walksTo_cons_iff.1 hwalks
      have hnext : ["home", name] = next := hsteps.eq_append hfile.names
      have hentry : ["home", name] ∈ fs.entries.map Prod.fst :=
        (FileSystem.mem_places_iff_of_ne_nil (by simp)).2 (hnext ▸ hsteps.there)
      have hlisted : name = "b?.json" ∨ name = "c.json" ∨ name = "v\x7b1\x7d.json" := by
        simpa [fs] using hentry
      rcases hlisted with rfl | rfl | rfl
      · rfl
      · exact absurd hfits (by decide)
      · exact absurd hfits (by decide)
  have hbraces : fs.read "v\x7b1\x7d.json" = .ok [0x5b, 0x5d] := rfl
  obtain ⟨_, _, hresolve, -, -, -, hfound, hpaths, -, hdocuments⟩ :=
    literal_path_is_read hbraces (by decide) (plainly_of_not_mem (by decide) (by decide))
  obtain rfl := hfound (.inr (by decide))
  obtain rfl := hpaths (by decide)
  have hmark : fs.read "b?.json" = .ok [0x7b, 0x7d] := rfl
  obtain ⟨_, _, hresolve', -, -, -, hfound, -, hpaths, hdocuments'⟩ :=
    literal_path_is_read hmark (by decide) (plainly_of_not_mem (by decide) (by decide))
  obtain rfl := hfound (.inr (by decide))
  obtain rfl := (hpaths hfs (by decide)).2 honly
  exact ⟨⟨by decide, hresolve, hdocuments rfl⟩, hfs, honly, hresolve', hdocuments' rfl⟩

/-- A name with brackets is taken for a pattern, which means another file. So is a name with a
question mark, which may mean another file as well. -/
theorem exists_misread :
    let fs : FileSystem := ⟨["home"], [(["home"], .directory), (["home", "a1.json"], .file []),
      (["home", "a[1].json"], .file [0x7b, 0x7d]), (["home", "b?.json"], .file [0x7b, 0x7d]),
      (["home", "bc.json"], .file [])]⟩
    (fs.read "a[1].json" = .ok [0x7b, 0x7d] ∧
      (Path.components "a[1].json").head? ≠ some .current ∧
      resolve fs ["a[1].json"] = .ok ["a1.json"]) ∧
    (fs.read "b?.json" = .ok [0x7b, 0x7d] ∧
      (Path.components "b?.json").head? ≠ some .current ∧
      resolve fs ["b?.json"] = .ok ["b?.json", "bc.json"]) := by
  intro fs
  have hlist : fs.list "." = [["a1.json"], ["a[1].json"], ["b?.json"], ["bc.json"]] := by
    have hsorted : [["a1.json"], ["a[1].json"], ["b?.json"], ["bc.json"]].Pairwise
        fun p q ↦ FileSystem.inOrder p q = true := by decide
    exact List.mergeSort_of_pairwise hsorted
  have hnames : entryNames fs "." = ["a1.json", "a[1].json", "b?.json", "bc.json"] := by
    rw [entryNames, hlist]
    rfl
  have hresolve : ∀ (input : String) (p : Pattern), isPattern input = true →
      PathPattern.read input = .ok ⟨".", [.choose p], false⟩ → dots p = [] →
      (entryNames fs ".").filter (fun name ↦ p.accepts name.toList) ≠ [] →
      resolve fs [input] = .ok ((entryNames fs ".").filter fun name ↦ p.accepts name.toList) := by
    intro input p hpattern hread hdots hsome
    have hpaths : PathPattern.paths fs ⟨".", [.choose p], false⟩ =
        (entryNames fs ".").filter fun name ↦ p.accepts name.toList := by
      have hextend : ∀ names : List String, (names.flatMap fun name ↦ [extend "." name]) = names :=
        fun names ↦ by simp [extend_dot]
      simp only [PathPattern.paths, expand, hdots, List.flatMap_nil, List.nil_append, hextend,
        if_pos (show fs.isDirectory "." = true by decide), Bool.false_eq_true, if_false]
    rw [resolve_singleton, pathsOf, if_pos hpattern, hread]
    simp only [hpaths, if_neg hsome]
  rw [hnames] at hresolve
  refine ⟨⟨rfl, by decide, ?_⟩, rfl, by decide, ?_⟩
  · exact hresolve "a[1].json" _ (by decide) (by cbv) (by decide) (by decide)
  · exact hresolve "b?.json" _ (by decide) (by cbv) (by decide) (by decide)

end Inputs

end JsonEmbed
