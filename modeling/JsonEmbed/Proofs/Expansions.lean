import JsonEmbed.Proofs.Reaching
import JsonEmbed.Proofs.Wildcards
import Mathlib.Data.List.Forall2

/-!
# Paths that a pattern stands for

Expanding the steps of a path's pieces goes on, piece by piece, with the names that a piece `Means`
and that are there (`reaches_of_mem_nexts`, `exists_mem_nexts`), each of them once.

So a path that leads somewhere is found itself (`alongWay_mem_expand`), as every piece means itself.
Without wildcards nothing else can be found (`length_expand_le_one`). With them something else is
found exactly if there is something else that the pieces mean (`length_expand_eq_one_iff`).
-/

namespace JsonEmbed

/-! ### What a piece means -/

/-- A name that a piece of a path means: the piece itself, or what fits it if it has a wildcard. A
dot or two fit only where the piece begins with a dot. -/
def Means (piece : List Char) (name : String) : Prop :=
  if HasWildcard piece then
    Fits piece name.toList ∧
      (Path.IsFileName name ∨ piece.head? = some '.' ∧ (name = "." ∨ name = ".."))
  else name = String.ofList piece

/-- A piece with a wildcard is a name. -/
theorem HasWildcard.isFileName {piece : List Char} (h : HasWildcard piece) (hslash : '/' ∉ piece) :
    Path.IsFileName (String.ofList piece) := by
  refine ⟨Path.slash_not_mem_ofList hslash, ?_⟩
  rw [String.toList_ofList]
  refine ⟨?_, ?_, ?_⟩ <;> rintro rfl <;> exact absurd h (by decide)

/-- Every piece means itself. -/
theorem means_self {piece : List Char} (hslash : '/' ∉ piece) :
    Means piece (String.ofList piece) := by
  rw [Means]
  split
  · next hwildcard =>
    rw [String.toList_ofList]
    exact ⟨.refl piece, .inl (hwildcard.isFileName hslash)⟩
  · rfl

theorem forall₂_means_self {pieces : List (List Char)} (h : ∀ piece ∈ pieces, '/' ∉ piece) :
    List.Forall₂ Means pieces (pieces.map String.ofList) := by
  rw [List.forall₂_map_right_iff, List.forall₂_same]
  exact fun piece hmem ↦ means_self (h piece hmem)

/-- Pieces without wildcards mean nothing but themselves. -/
theorem eq_of_forall₂_means {pieces : List (List Char)} {names : List String}
    (h : ∀ piece ∈ pieces, ¬HasWildcard piece) (hnames : List.Forall₂ Means pieces names) :
    names = pieces.map String.ofList := by
  induction hnames with
  | nil => rfl
  | @cons piece name pieces names hmeans _ ih =>
    obtain ⟨hpiece, hpieces⟩ := List.forall_mem_cons.1 h
    rw [Means, if_neg hpiece] at hmeans
    rw [List.map_cons, hmeans, ih hpieces]

theorem map_toList_ofList (pieces : List (List Char)) :
    (pieces.map String.ofList).map String.toList = pieces := by
  rw [List.map_map]
  exact (List.map_congr_left fun piece _ ↦ String.toList_ofList).trans (List.map_id pieces)

theorem Means.slash {piece : List Char} {name : String} (h : Means piece name)
    (hslash : '/' ∉ piece) : '/' ∉ name.toList := by
  rw [Means] at h
  split at h
  · rcases h.2 with hname | ⟨-, rfl | rfl⟩
    · exact hname.slash
    · decide
    · decide
  · rwa [h, String.toList_ofList]

/-! ### Lists of one element -/

/-- A list with something in it has nothing else if it has one element. -/
theorem eq_singleton_iff_of_mem {α : Type} {l : List α} {a : α} (h : a ∈ l) :
    l = [a] ↔ l.length = 1 := by
  refine ⟨fun hl ↦ by rw [hl]; rfl, fun hone ↦ ?_⟩
  obtain ⟨b, rfl⟩ := List.length_eq_one_iff.1 hone
  rw [List.mem_singleton.1 h]

/-- Of lists that are joined, each with a key of its own, one that is not empty is all there is to
it if the whole has one element. -/
theorem length_flatMap_eq_one_iff {α β γ : Type} {l : List (α × β)} {f : β → List γ} {a : α × β}
    (hl : (l.map Prod.fst).Nodup) (ha : a ∈ l) (hfa : f a.2 ≠ []) :
    (l.flatMap fun n ↦ f n.2).length = 1 ↔
      (f a.2).length = 1 ∧ ∀ b ∈ l, b.1 ≠ a.1 → f b.2 = [] := by
  obtain ⟨s, t, rfl⟩ := List.append_of_mem ha
  rw [List.map_append, List.map_cons, List.nodup_middle, List.nodup_cons, ← List.map_append] at hl
  have hothers : (∀ b ∈ s ++ a :: t, b.1 ≠ a.1 → f b.2 = []) ↔
      ((s ++ t).flatMap fun n ↦ f n.2) = [] := by
    rw [List.flatMap_eq_nil_iff]
    refine ⟨fun h b hb ↦ ?_, fun h b hb hne ↦ ?_⟩
    · have hne : b.1 ≠ a.1 := fun heq ↦ hl.1 (heq ▸ List.mem_map_of_mem hb)
      exact h b (List.mem_append.2 ((List.mem_append.1 hb).imp_right (List.mem_cons_of_mem a))) hne
    · refine h b (List.mem_append.2 ((List.mem_append.1 hb).imp_right fun hb ↦ ?_))
      exact (List.mem_cons.1 hb).resolve_left fun heq ↦ hne (by rw [heq])
  have hpos := List.length_pos_iff.2 hfa
  rw [hothers, ← List.length_eq_zero_iff]
  simp only [List.flatMap_append, List.flatMap_cons, List.length_append]
  omega

namespace PathPattern

open FileSystem

variable {fs : FileSystem} {path name : String} {here next : Place} {piece : List Char}

/-! ### Going on by a step -/

/-- Following a name leads somewhere if the name does. -/
theorem leads_of_stepsTo (h : fs.Reaches path here) (hslash : '/' ∉ piece)
    (hempty : piece = [] → Path.components path ≠ [.current])
    (hsteps : fs.StepsTo here piece next) : leads fs path (String.ofList piece) = true := by
  rw [leads]
  split
  · exact h.isDirectory_iff.2 (get?_of_step hsteps.step)
  · exact (h.extend hslash hempty hsteps).contains

/-- Following a name leads somewhere only if the name does. -/
theorem exists_stepsTo_of_leads (hfs : fs.IsTree) (h : fs.Reaches path here) (hslash : '/' ∉ piece)
    (hpiece : piece ≠ []) (hleads : leads fs path (String.ofList piece) = true) :
    ∃ next, fs.StepsTo here piece next := by
  rw [leads] at hleads
  split at hleads
  · next hdots =>
    obtain ⟨next, hsteps⟩ := hfs.exists_stepsTo (h.isDirectory_iff.1 hleads) hdots
    rw [String.toList_ofList] at hsteps
    exact ⟨next, hsteps⟩
  · obtain ⟨next, hplace, hnext⟩ := exists_place_of_contains hleads
    rw [h.place_extend hslash fun hnil ↦ absurd hnil hpiece] at hplace
    exact ⟨next, hplace, hnext⟩

/-- The names that a step goes on with, and the paths they lead to. -/
def nexts (fs : FileSystem) (path : String) : PatternStep → List (String × String)
  | .descend => []
  | .follow name => if leads fs path name then [(name, extend path name)] else []
  | .choose p =>
    if fs.isDirectory path then
      (dots p).map (fun name ↦ (name, Path.join path name)) ++
        ((entryNames fs path).filter fun name ↦ p.accepts name.toList).map fun name ↦
          (name, extend path name)
    else []

theorem expand_cons (piece : List Char) (steps : List PatternStep) :
    expand fs (.ofPiece piece :: steps) path =
      (nexts fs path (.ofPiece piece)).flatMap fun n ↦ expand fs steps n.2 := by
  rw [PatternStep.ofPiece]
  split
  · rw [expand, nexts]
    split
    · rw [List.flatMap_append, List.flatMap_map, List.flatMap_map]
    · rfl
  · rw [expand, nexts]
    split
    · exact (List.flatMap_singleton _ _).symm
    · rfl

theorem accepts_map_iff {text : String} :
    Pattern.accepts (piece.map Pattern.wildcardOf) text.toList = true ↔ Fits piece text.toList :=
  Pattern.accepts_iff_fits piece text.toList

theorem mem_dots_iff :
    name ∈ dots (piece.map Pattern.wildcardOf) ↔
      piece.head? = some '.' ∧ (name = "." ∨ name = "..") ∧ Fits piece name.toList := by
  have hhead : (piece.map Pattern.wildcardOf).head? = some (.char '.') ↔
      piece.head? = some '.' := by
    rw [List.head?_map, Option.map_eq_some_iff]
    refine ⟨?_, fun hdot ↦ ⟨'.', hdot, rfl⟩⟩
    rintro ⟨c, hc, hdot⟩
    rwa [Pattern.eq_of_wildcardOf_eq_char hdot] at hc
  rw [dots]
  split
  · next hdot =>
    rw [List.mem_filter, accepts_map_iff, ← hhead]
    simp [hdot, or_comm]
  · next hdot =>
    rw [hhead] at hdot
    simp [hdot]

theorem mem_nexts_follow_iff {only below : String} :
    (name, below) ∈ nexts fs path (.follow only) ↔
      leads fs path only = true ∧ name = only ∧ below = extend path only := by
  rw [nexts]
  split
  · next hleads => simp [hleads]
  · next hleads => simp [hleads]

theorem mem_nexts_choose_iff {p : Pattern} {below : String} :
    (name, below) ∈ nexts fs path (.choose p) ↔
      fs.isDirectory path = true ∧
        (name ∈ dots p ∧ below = Path.join path name ∨
          (name ∈ entryNames fs path ∧ p.accepts name.toList = true) ∧
            below = extend path name) := by
  have hmap : ∀ (names : List String) (f : String → String),
      (name, below) ∈ names.map (fun name ↦ (name, f name)) ↔ name ∈ names ∧ below = f name := by
    intro names f
    rw [List.mem_map]
    constructor
    · rintro ⟨name, hname, heq⟩
      obtain ⟨rfl, rfl⟩ := Prod.mk.inj heq
      exact ⟨hname, rfl⟩
    · rintro ⟨hname, rfl⟩
      exact ⟨name, hname, rfl⟩
  rw [nexts]
  split
  · next hdirectory =>
    rw [List.mem_append, hmap, hmap, List.mem_filter]
    exact (and_iff_right hdirectory).symm
  · next hdirectory => exact iff_of_false List.not_mem_nil fun h ↦ hdirectory h.1

/-- What a step for a piece goes on with is meant by the piece, and there. -/
theorem reaches_of_mem_nexts (hfs : fs.IsProper) (h : fs.Reaches path here) (hslash : '/' ∉ piece)
    (hpiece : piece ≠ []) {below : String} (hmem : (name, below) ∈ nexts fs path (.ofPiece piece)) :
    Means piece name ∧ ∃ next, fs.StepsTo here name.toList next ∧ fs.Reaches below next := by
  rw [PatternStep.ofPiece] at hmem
  rw [Means]
  by_cases hwildcard : HasWildcard piece
  · rw [if_pos hwildcard, mem_nexts_choose_iff] at hmem
    rw [if_pos hwildcard]
    obtain ⟨hdirectory, ⟨hname, rfl⟩ | ⟨⟨hentry, hfits⟩, rfl⟩⟩ := hmem
    · obtain ⟨hhead, hdots, hfits⟩ := mem_dots_iff.1 hname
      obtain ⟨next, hsteps⟩ := hfs.tree.exists_stepsTo (h.isDirectory_iff.1 hdirectory) hdots
      have hjoin := h.join (by rcases hdots with rfl | rfl <;> decide) hsteps
      rw [String.ofList_toList] at hjoin
      exact ⟨⟨hfits, .inr ⟨hhead, hdots⟩⟩, next, hsteps, hjoin⟩
    · have hhere := h.isDirectory_iff.1 hdirectory
      have hthere := (h.mem_entryNames_iff hhere).1 hentry
      have hfile := hfs.isFileName hthere
      have hsteps : fs.StepsTo here name.toList (here ++ [name]) :=
        ⟨by rw [step_of_names hhere hfile.names, String.ofList_toList], hthere⟩
      have hextend := h.extend hfile.slash (fun hnil ↦ absurd hnil hfile.names.1) hsteps
      rw [String.ofList_toList] at hextend
      exact ⟨⟨accepts_map_iff.1 hfits, .inl hfile⟩, _, hsteps, hextend⟩
  · rw [if_neg hwildcard, mem_nexts_follow_iff] at hmem
    rw [if_neg hwildcard]
    obtain ⟨hleads, rfl, rfl⟩ := hmem
    obtain ⟨next, hsteps⟩ := exists_stepsTo_of_leads hfs.tree h hslash hpiece hleads
    rw [String.toList_ofList]
    exact ⟨rfl, next, hsteps, h.extend hslash (fun hnil ↦ absurd hnil hpiece) hsteps⟩

/-- A step for a piece with a wildcard goes on with the entries that fit. -/
theorem mem_nexts_of_fits (h : fs.Reaches path here) (hwildcard : HasWildcard piece)
    (hname : Path.IsFileName name) (hfits : Fits piece name.toList)
    (hsteps : fs.StepsTo here name.toList next) :
    (name, extend path name) ∈ nexts fs path (.ofPiece piece) := by
  have hhere := get?_of_step hsteps.step
  have hentry : name ∈ entryNames fs path := by
    rw [h.mem_entryNames_iff hhere, hsteps.eq_append hname.names]
    exact hsteps.there
  rw [PatternStep.ofPiece, if_pos hwildcard, mem_nexts_choose_iff]
  exact ⟨h.isDirectory_iff.2 hhere, .inr ⟨⟨hentry, accepts_map_iff.2 hfits⟩, rfl⟩⟩

/-- A step for a piece goes on with the piece itself. -/
theorem self_mem_nexts (h : fs.Reaches path here) (hslash : '/' ∉ piece)
    (hempty : piece = [] → Path.components path ≠ [.current])
    (hsteps : fs.StepsTo here piece next) :
    (String.ofList piece, extend path (String.ofList piece)) ∈
      nexts fs path (.ofPiece piece) := by
  by_cases hwildcard : HasWildcard piece
  · have hfits : Fits piece (String.ofList piece).toList := by
      rw [String.toList_ofList]
      exact .refl piece
    have hsteps' : fs.StepsTo here (String.ofList piece).toList next := by
      rwa [String.toList_ofList]
    exact mem_nexts_of_fits h hwildcard (hwildcard.isFileName hslash) hfits hsteps'
  · rw [PatternStep.ofPiece, if_neg hwildcard, mem_nexts_follow_iff]
    exact ⟨leads_of_stepsTo h hslash hempty hsteps, rfl, rfl⟩

/-- A step for a piece goes on with every name that the piece means and that is there. -/
theorem exists_mem_nexts (h : fs.Reaches path here) (hslash : '/' ∉ piece) (hpiece : piece ≠ [])
    (hmeans : Means piece name) (hsteps : fs.StepsTo here name.toList next) :
    ∃ below, (name, below) ∈ nexts fs path (.ofPiece piece) ∧ fs.Reaches below next := by
  have hname := hmeans.slash hslash
  have hjoin := h.join hname hsteps
  have hextend := fun hempty ↦ h.extend hname hempty hsteps
  rw [String.ofList_toList] at hjoin hextend
  rw [Means] at hmeans
  split at hmeans
  · next hwildcard =>
    obtain ⟨hfits, hfile | ⟨hhead, hdots⟩⟩ := hmeans
    · exact ⟨_, mem_nexts_of_fits h hwildcard hfile hfits hsteps,
        hextend fun hnil ↦ absurd hnil hfile.names.1⟩
    · refine ⟨Path.join path name, ?_, hjoin⟩
      rw [PatternStep.ofPiece, if_pos hwildcard, mem_nexts_choose_iff]
      exact ⟨h.isDirectory_iff.2 (get?_of_step hsteps.step),
        .inl ⟨mem_dots_iff.2 ⟨hhead, hdots, hfits⟩, rfl⟩⟩
  · subst hmeans
    rw [String.toList_ofList] at hsteps
    have hempty : piece = [] → Path.components path ≠ [.current] :=
      fun hnil ↦ absurd hnil hpiece
    exact ⟨_, self_mem_nexts h hslash hempty hsteps, h.extend hslash hempty hsteps⟩

/-- A step for a piece goes on with no name twice. -/
theorem nodup_nexts (hfs : fs.IsProper) (h : fs.Reaches path here) (piece : List Char) :
    ((nexts fs path (.ofPiece piece)).map Prod.fst).Nodup := by
  rw [PatternStep.ofPiece]
  split <;> rw [nexts] <;> split
  · next hdirectory =>
    have hhere := h.isDirectory_iff.1 hdirectory
    have hkept : ∀ (names : List String) (below : String → String),
        (names.map fun name ↦ (name, below name)).map Prod.fst = names := by
      intro names below
      rw [List.map_map]
      exact List.map_id names
    rw [List.map_append, hkept, hkept]
    refine List.Nodup.append ?_ ((h.nodup_entryNames hfs.nodup hhere).filter _) ?_
    · rw [dots]
      split
      · exact .filter _ (by decide)
      · exact List.nodup_nil
    -- no entry has the name of a dot or two
    · intro name hdot hentry
      obtain ⟨-, hdots, -⟩ := mem_dots_iff.1 hdot
      have hthere := (h.mem_entryNames_iff hhere).1 (List.mem_filter.1 hentry).1
      have hnames := (hfs.isFileName hthere).names
      rcases hdots with rfl | rfl
      · exact hnames.2.1 rfl
      · exact hnames.2.2 rfl
  · exact List.nodup_nil
  · exact List.nodup_singleton _
  · exact List.nodup_nil

/-! ### Going on by all steps -/

theorem alongWay_cons (path name : String) (way : Place) :
    alongWay path (name :: way) = alongWay (extend path name) way :=
  rfl

theorem extend_eq_join (hcurrent : (Path.components path).head? ≠ some .current) (name : String) :
    extend path name = Path.join path name :=
  if_neg fun heq ↦ hcurrent (by rw [heq]; rfl)

/-- A path is among those that its pieces lead to as a pattern. The path found is spelled without
repeated slashes, and says the same. -/
theorem alongWay_mem_expand {pieces : List (List Char)} {q : Place}
    (hslash : ∀ piece ∈ pieces, '/' ∉ piece)
    (hcurrent : (Path.components path).head? ≠ some .current) (h : fs.Reaches path here)
    (hwalks : fs.WalksTo here pieces q) :
    alongWay path (pieces.map String.ofList) ∈ expand fs (pieces.map .ofPiece) path ∧
      fs.Reaches (alongWay path (pieces.map String.ofList)) q ∧
      Path.components (alongWay path (pieces.map String.ofList)) =
        Path.components path ++ pieces.filterMap (Path.component? false) := by
  induction pieces generalizing path here with
  | nil =>
    obtain rfl : here = q := Except.ok.inj hwalks.walk
    rw [List.map_nil, List.map_nil, expand, List.filterMap_nil, List.append_nil]
    exact ⟨List.mem_cons_self, h, rfl⟩
  | cons piece pieces ih =>
    obtain ⟨hpiece, hpieces⟩ := List.forall_mem_cons.1 hslash
    obtain ⟨next, hsteps, hrest⟩ := walksTo_cons_iff.1 hwalks
    have hnot : Path.components path ≠ [.current] := fun heq ↦ hcurrent (by rw [heq]; rfl)
    have hmem := self_mem_nexts h hpiece (fun _ ↦ hnot) hsteps
    rw [extend_eq_join hcurrent] at hmem
    have hname := Path.slash_not_mem_ofList hpiece
    have hcurrent' := Path.head?_components_join h.named hpiece hcurrent
    obtain ⟨hrestmem, hreaches, hsame⟩ := ih hpieces hcurrent' (h.join hpiece hsteps) hrest
    rw [List.map_cons, List.map_cons, alongWay_cons, extend_eq_join hcurrent]
    refine ⟨?_, hreaches, ?_⟩
    · rw [expand_cons, List.mem_flatMap]
      exact ⟨_, hmem, hrestmem⟩
    · rw [hsame, Path.components_join h.named hname, String.toList_ofList, List.filterMap_cons,
        List.append_assoc]
      cases Path.component? false piece <;> rfl

/-- Without wildcards there is at most one path. -/
theorem length_expand_le_one {pieces : List (List Char)}
    (h : ∀ piece ∈ pieces, ¬HasWildcard piece) :
    (expand fs (pieces.map .ofPiece) path).length ≤ 1 := by
  induction pieces generalizing path with
  | nil =>
    rw [List.map_nil, expand]
    exact le_rfl
  | cons piece pieces ih =>
    obtain ⟨hpiece, hpieces⟩ := List.forall_mem_cons.1 h
    rw [List.map_cons, PatternStep.ofPiece, if_neg hpiece, expand]
    split
    · exact ih hpieces
    · exact Nat.zero_le 1

/-- There is a path if and only if there is something that the pieces mean. -/
theorem expand_ne_nil_iff (hfs : fs.IsProper) (h : fs.Reaches path here)
    {pieces : List (List Char)} (hpieces : ∀ piece ∈ pieces, piece ≠ [] ∧ '/' ∉ piece) :
    expand fs (pieces.map .ofPiece) path ≠ [] ↔
      ∃ names q, List.Forall₂ Means pieces names ∧
        fs.WalksTo here (names.map String.toList) q := by
  induction pieces generalizing path here with
  | nil =>
    rw [List.map_nil, expand]
    exact iff_of_true (List.cons_ne_nil _ _) ⟨[], here, .nil, rfl, h.there⟩
  | cons piece pieces ih =>
    obtain ⟨⟨hpiece, hslash⟩, hpieces⟩ := List.forall_mem_cons.1 hpieces
    rw [List.map_cons, expand_cons, ne_eq, List.flatMap_eq_nil_iff, not_forall]
    constructor
    · rintro ⟨⟨name, below⟩, hnot⟩
      obtain ⟨hmem, hexpand⟩ := Classical.not_imp.1 hnot
      obtain ⟨hmeans, next, hsteps, hreaches⟩ := reaches_of_mem_nexts hfs h hslash hpiece hmem
      obtain ⟨names, q, hnames, hwalks⟩ := (ih hreaches hpieces).1 hexpand
      exact ⟨name :: names, q, .cons hmeans hnames, walksTo_cons_iff.2 ⟨next, hsteps, hwalks⟩⟩
    · rintro ⟨_, q, hnames, hwalks⟩
      cases hnames with
      | @cons _ name _ names hmeans hnames =>
        obtain ⟨next, hsteps, hrest⟩ := walksTo_cons_iff.1 hwalks
        obtain ⟨below, hmem, hreaches⟩ := exists_mem_nexts h hslash hpiece hmeans hsteps
        refine ⟨(name, below), Classical.not_imp.2 ⟨hmem, ?_⟩⟩
        exact (ih hreaches hpieces).2 ⟨names, q, hnames, hrest⟩

/-- Besides something that is there already, the paths are no more than one if and only if the
pieces mean nothing else that is there. -/
theorem length_expand_eq_one_iff (hfs : fs.IsProper) (h : fs.Reaches path here)
    {pieces : List (List Char)} (hpieces : ∀ piece ∈ pieces, piece ≠ [] ∧ '/' ∉ piece) {q : Place}
    (hwalks : fs.WalksTo here pieces q) :
    (expand fs (pieces.map .ofPiece) path).length = 1 ↔
      ∀ names q', List.Forall₂ Means pieces names → fs.WalksTo here (names.map String.toList) q' →
        names = pieces.map String.ofList := by
  induction pieces generalizing path here with
  | nil =>
    rw [List.map_nil, expand]
    refine iff_of_true rfl fun names q' hnames _ ↦ ?_
    cases hnames
    rfl
  | cons piece pieces ih =>
    obtain ⟨⟨hpiece, hslash⟩, hrest⟩ := List.forall_mem_cons.1 hpieces
    obtain ⟨next, hsteps, hlater⟩ := walksTo_cons_iff.1 hwalks
    have hempty : piece = [] → Path.components path ≠ [.current] := fun hnil ↦ absurd hnil hpiece
    have hown := self_mem_nexts h hslash hempty hsteps
    have hreaches := h.extend hslash hempty hsteps
    have hthere : expand fs (pieces.map .ofPiece) (extend path (String.ofList piece)) ≠ [] :=
      (expand_ne_nil_iff hfs hreaches hrest).2 ⟨pieces.map String.ofList, q,
        forall₂_means_self fun piece hmem ↦ (hrest piece hmem).2, by rwa [map_toList_ofList]⟩
    rw [List.map_cons, expand_cons,
      length_flatMap_eq_one_iff (nodup_nexts hfs h piece) hown hthere, ih hreaches hrest hlater]
    constructor
    · rintro ⟨honly, hothers⟩ _ q' hnames hwalks'
      cases hnames with
      | @cons _ name _ names hmeans hnames =>
        obtain ⟨next', hsteps', hlater'⟩ := walksTo_cons_iff.1 hwalks'
        by_cases hname : name = String.ofList piece
        · rw [hname, String.toList_ofList] at hsteps'
          obtain rfl : next = next' := Except.ok.inj (hsteps.step.symm.trans hsteps'.step)
          rw [List.map_cons, hname, honly names q' hnames hlater']
        · -- then there is a path of this name, so the piece leads to more than one
          obtain ⟨below, hmem, hreaches'⟩ := exists_mem_nexts h hslash hpiece hmeans hsteps'
          have hsome := (expand_ne_nil_iff hfs hreaches' hrest).2 ⟨names, q', hnames, hlater'⟩
          exact absurd (hothers (name, below) hmem hname) hsome
    · intro honly
      refine ⟨fun names q' hnames hlater' ↦ ?_, fun n hmem hname ↦ ?_⟩
      · have hwalks' : fs.WalksTo here ((String.ofList piece :: names).map String.toList) q' := by
          rw [List.map_cons, String.toList_ofList]
          exact walksTo_cons_iff.2 ⟨next, hsteps, hlater'⟩
        exact (List.cons.inj (honly _ q' (.cons (means_self hslash) hnames) hwalks')).2
      · obtain ⟨name, below⟩ := n
        by_contra hsome
        obtain ⟨hmeans, next', hsteps', hreaches'⟩ :=
          reaches_of_mem_nexts hfs h hslash hpiece hmem
        obtain ⟨names, q', hnames, hlater'⟩ := (expand_ne_nil_iff hfs hreaches' hrest).1 hsome
        have hwalks' : fs.WalksTo here ((name :: names).map String.toList) q' :=
          walksTo_cons_iff.2 ⟨next', hsteps', hlater'⟩
        exact hname (List.cons.inj (honly _ q' (.cons hmeans hnames) hwalks')).1

end PathPattern

end JsonEmbed
