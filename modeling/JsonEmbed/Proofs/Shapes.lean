import JsonEmbed.CommandLine.Inputs
import JsonEmbed.Proofs.Places

/-!
# Shapes of file systems

The shape of a file system is what is left of it without the contents of its files: what there is,
and what is a directory. Paths are followed, patterns expanded and inputs looked up by the shape
alone, so they come to the same in two file systems of one shape; what is read differs in nothing
but the bytes; and a directory that is made or a file that is written in both, with whatever bytes,
leaves two file systems of one shape.

An attempt may fail, and then it fails with the same error in both. `Alike` says this together with
how the results are related if it does not.
-/

namespace JsonEmbed

/-! ### Attempts that go alike -/

/-- Two attempts go alike: both fail with the same error, or their results are related. -/
inductive Alike {ε α β : Type} (R : α → β → Prop) : Except ε α → Except ε β → Prop
  | error (e : ε) : Alike R (.error e) (.error e)
  | ok {a : α} {b : β} (h : R a b) : Alike R (.ok a) (.ok b)

namespace Alike

variable {ε δ α β γ η : Type} {R : α → β → Prop} {S : γ → η → Prop} {x : Except ε α}
  {y : Except ε β}

theorem exists_eq (h : Alike R x y) :
    (∃ e, x = .error e ∧ y = .error e) ∨ ∃ a b, x = .ok a ∧ y = .ok b ∧ R a b := by
  cases h with
  | error e => exact Or.inl ⟨e, rfl, rfl⟩
  | ok hab => exact Or.inr ⟨_, _, rfl, rfl, hab⟩

/-- One step after another goes alike if each does. -/
theorem bind (h : Alike R x y) {f : α → Except ε γ} {g : β → Except ε η}
    (hnext : ∀ a b, R a b → Alike S (f a) (g b)) : Alike S (x >>= f) (y >>= g) := by
  cases h with
  | error e => exact .error e
  | ok hab => exact hnext _ _ hab

theorem mapError (h : Alike R x y) (f : ε → δ) : Alike R (x.mapError f) (y.mapError f) := by
  cases h with
  | error e => exact .error (f e)
  | ok hab => exact .ok hab

/-- What is the same goes alike. -/
theorem of_eq {x y : Except ε α} (h : x = y) : Alike (· = ·) x y := by
  subst h
  cases x with
  | error e => exact .error e
  | ok a => exact .ok rfl

end Alike

/-- Whether what is at a place is a directory. -/
def Entry.isDirectory : Entry → Bool
  | directory => true
  | file _ => false

namespace FileSystem

/-! ### One shape -/

/-- Two file systems of one shape: relative paths start at the same place, the same places are
listed, and at each there is a file in both, a directory in both, or nothing. -/
structure SameShape (fs fs' : FileSystem) : Prop where
  workingDirectory : fs.workingDirectory = fs'.workingDirectory
  places : (fs.entries.map Prod.fst).Perm (fs'.entries.map Prod.fst)
  kinds : ∀ p, (fs.get? p).map Entry.isDirectory = (fs'.get? p).map Entry.isDirectory

variable {fs fs' : FileSystem}

/-- That two file systems are of one shape can be seen from their entries. -/
theorem sameShape_of_entries (hstart : fs.workingDirectory = fs'.workingDirectory)
    (h : fs.entries.map (Prod.map id Entry.isDirectory) =
      fs'.entries.map (Prod.map id Entry.isDirectory)) : SameShape fs fs' where
  workingDirectory := hstart
  places := by
    have hplaces := congrArg (List.map Prod.fst) h
    simp only [List.map_map] at hplaces
    exact .of_eq hplaces
  kinds p := by
    have hlookup : ∀ es : List (Place × Entry), (es.lookup p).map Entry.isDirectory =
        (es.map (Prod.map id Entry.isDirectory)).lookup p := by
      intro es
      induction es with
      | nil => rfl
      | cons e es ih =>
        rw [List.map_cons, List.lookup_cons, List.lookup_cons, ← ih]
        simp only [Prod.map_fst, Prod.map_snd, id_eq]
        cases p == e.1 <;> rfl
    rw [get?, get?]
    split
    · rfl
    · rw [hlookup, hlookup, h]

theorem mem_places_iff (hroot : [] ∉ fs.entries.map Prod.fst) {p : Place} :
    p ∈ fs.entries.map Prod.fst ↔ p ≠ [] ∧ (fs.get? p).isSome = true := by
  by_cases hp : p = []
  · subst hp
    exact iff_of_false hroot fun h ↦ h.1 rfl
  · rw [mem_places_iff_of_ne_nil hp, Option.isSome_iff_ne_none]
    exact (and_iff_right hp).symm

/-- Where no place is listed twice, nor the root, what is at the places says which are listed. -/
theorem sameShape_of_kinds (hstart : fs.workingDirectory = fs'.workingDirectory)
    (hnodup : (fs.entries.map Prod.fst).Nodup) (hnodup' : (fs'.entries.map Prod.fst).Nodup)
    (hroot : [] ∉ fs.entries.map Prod.fst) (hroot' : [] ∉ fs'.entries.map Prod.fst)
    (hkinds : ∀ p, (fs.get? p).map Entry.isDirectory = (fs'.get? p).map Entry.isDirectory) :
    SameShape fs fs' where
  workingDirectory := hstart
  places := by
    refine (List.perm_ext_iff_of_nodup hnodup hnodup').2 fun p ↦ ?_
    have hthere : (fs.get? p).isSome = (fs'.get? p).isSome := by
      have hkind := congrArg Option.isSome (hkinds p)
      rwa [Option.isSome_map, Option.isSome_map] at hkind
    rw [mem_places_iff hroot, mem_places_iff hroot', hthere]
  kinds := hkinds

/-! ### The order of places -/

theorem inOrder_iff {p q : Place} :
    inOrder p q = true ↔ ¬List.Lex (fun s t : String ↦ decide (s < t) = true) q p := by
  rw [inOrder, Bool.not_eq_true', List.lex_eq_false_iff_not_lex]

theorem inOrder_antisymm {p q : Place} (hpq : inOrder p q = true) (hqp : inOrder q p = true) :
    p = q := by
  refine List.lex_trichotomous (fun s t hst hts ↦ ?_) (inOrder_iff.1 hpq) (inOrder_iff.1 hqp)
  exact String.le_antisymm (String.not_lt.1 (mt decide_eq_true hts))
    (String.not_lt.1 (mt decide_eq_true hst))

theorem inOrder_total (p q : Place) : inOrder p q = true ∨ inOrder q p = true := by
  rw [inOrder_iff, inOrder_iff, ← not_and_or]
  rintro ⟨hqp, hpq⟩
  refine List.lex_asymm (fun hst hts ↦ ?_) hqp hpq
  exact String.lt_asymm (of_decide_eq_true hst) (of_decide_eq_true hts)

theorem inOrder_trans {p q r : Place} (hpq : inOrder p q = true) (hqr : inOrder q r = true) :
    inOrder p r = true := by
  -- of two places that are not in order, the second comes first
  by_contra hpr
  have hrp := not_not.1 (mt inOrder_iff.2 hpr)
  by_cases hqp : inOrder q p = true
  · exact hpr (inOrder_antisymm hpq hqp ▸ hqr)
  · have hlex := not_not.1 (mt inOrder_iff.2 hqp)
    refine inOrder_iff.1 hqr (List.lex_trans (fun hst htu ↦ ?_) hrp hlex)
    exact decide_eq_true (String.lt_trans (of_decide_eq_true hst) (of_decide_eq_true htu))

/-- However places are listed, in order they are the same. -/
theorem mergeSort_eq_of_perm {ps qs : List Place} (h : ps.Perm qs) :
    ps.mergeSort inOrder = qs.mergeSort inOrder := by
  have hsorted : ∀ rs : List Place,
      (rs.mergeSort inOrder).Pairwise fun p q ↦ inOrder p q = true :=
    List.pairwise_mergeSort (fun _ _ _ ↦ inOrder_trans)
      fun p q ↦ Bool.or_eq_true_iff.2 (inOrder_total p q)
  exact List.Perm.eq_of_pairwise (fun _ _ _ _ ↦ inOrder_antisymm) (hsorted ps) (hsorted qs)
    ((List.mergeSort_perm ps _).trans (h.trans (List.mergeSort_perm qs _).symm))

namespace SameShape

theorem refl (fs : FileSystem) : SameShape fs fs :=
  ⟨rfl, .rfl, fun _ ↦ rfl⟩

variable (h : SameShape fs fs')

include h

/-- There is nothing in both, a directory in both, or a file in both. -/
theorem cases (p : Place) :
    (fs.get? p = none ∧ fs'.get? p = none) ∨
    (fs.get? p = some .directory ∧ fs'.get? p = some .directory) ∨
    ∃ bytes bytes', fs.get? p = some (.file bytes) ∧ fs'.get? p = some (.file bytes') := by
  have hkind := h.kinds p
  rcases hp : fs.get? p with - | - | bytes
  · rw [hp] at hkind
    exact Or.inl ⟨rfl, Option.map_eq_none_iff.1 hkind.symm⟩
  · rw [hp] at hkind
    obtain ⟨e, he, hdirectory⟩ := Option.map_eq_some_iff.1 hkind.symm
    cases e with
    | directory => exact Or.inr (Or.inl ⟨rfl, he⟩)
    | file bytes => exact absurd hdirectory (by simp [Entry.isDirectory])
  · rw [hp] at hkind
    obtain ⟨e, he, hfile⟩ := Option.map_eq_some_iff.1 hkind.symm
    cases e with
    | directory => exact absurd hfile (by simp [Entry.isDirectory])
    | file bytes' => exact Or.inr (Or.inr ⟨bytes, bytes', rfl, he⟩)

/-! ### Following paths -/

theorem step : fs.step = fs'.step := by
  funext here piece
  rw [FileSystem.step, FileSystem.step]
  rcases h.cases here with ⟨hp, hp'⟩ | ⟨hp, hp'⟩ | ⟨_, _, hp, hp'⟩ <;> rw [hp, hp']

theorem walk : fs.walk = fs'.walk := by
  funext here pieces
  induction pieces generalizing here with
  | nil => rfl
  | cons piece pieces ih =>
    rw [FileSystem.walk, FileSystem.walk, h.step]
    exact congrArg _ (funext ih)

theorem start : fs.start = fs'.start := by
  funext path
  rw [FileSystem.start, FileSystem.start, h.workingDirectory]

theorem place : fs.place = fs'.place := by
  funext path
  rw [FileSystem.place, FileSystem.place, h.start, h.walk]

theorem newPlace? : fs.newPlace? = fs'.newPlace? := by
  funext path
  rw [FileSystem.newPlace?, FileSystem.newPlace?, h.start, h.walk, h.step]

/-- What a path leads to is a file in both, a directory in both, or nothing. -/
theorem find (path : String) :
    Alike (fun e e' ↦ e.isDirectory = e'.isDirectory) (fs.find path) (fs'.find path) := by
  rw [FileSystem.find, FileSystem.find, h.place]
  refine (Alike.of_eq rfl).bind ?_
  rintro p _ rfl
  rcases h.cases p with ⟨hp, hp'⟩ | ⟨hp, hp'⟩ | ⟨_, _, hp, hp'⟩ <;> rw [hp, hp']
  · exact .error _
  · exact .ok rfl
  · exact .ok rfl

theorem contains : fs.contains = fs'.contains := by
  funext path
  rw [FileSystem.contains, FileSystem.contains]
  rcases (h.find path).exists_eq with ⟨e, hx, hy⟩ | ⟨a, b, hx, hy, -⟩
  · rw [hx, hy]
  · rw [hx, hy]
    rfl

theorem isDirectory : fs.isDirectory = fs'.isDirectory := by
  have hkind : ∀ e : Entry, (some e == some Entry.directory) = e.isDirectory := by
    rintro (- | bytes) <;> rfl
  funext path
  rw [FileSystem.isDirectory, FileSystem.isDirectory]
  rcases (h.find path).exists_eq with ⟨e, hx, hy⟩ | ⟨a, b, hx, hy, hab⟩ <;> rw [hx, hy]
  rw [Except.toOption, Except.toOption, hkind, hkind, hab]

/-- A file is read in both, with whatever bytes, or the same is wrong. -/
theorem read (path : String) : Alike (fun _ _ ↦ True) (fs.read path) (fs'.read path) := by
  rw [FileSystem.read, FileSystem.read]
  refine (h.find path).bind fun e e' hentries ↦ ?_
  rcases e with - | bytes <;> rcases e' with - | bytes'
  · exact .error _
  · exact absurd hentries (by simp [Entry.isDirectory])
  · exact absurd hentries (by simp [Entry.isDirectory])
  · exact .ok trivial

/-! ### Listing directories -/

/-- Below a place the same is listed in the same order: the order is that of the names. -/
theorem below : fs.below = fs'.below := by
  have hways : ∀ (p : Place) (es : List (Place × Entry)),
      (es.filterMap fun e ↦ p.isPrefixOf? e.1) = (es.map Prod.fst).filterMap p.isPrefixOf? := by
    intro p es
    rw [List.filterMap_map]
    rfl
  funext p
  have hperm := (h.places.filterMap p.isPrefixOf?).filter fun way ↦ !way.isEmpty
  simp only [FileSystem.below, hways]
  exact mergeSort_eq_of_perm hperm

theorem list : fs.list = fs'.list := by
  funext path
  rw [FileSystem.list, FileSystem.list, h.place, h.isDirectory, h.below]

/-! ### Expanding patterns -/

theorem expand : PathPattern.expand fs = PathPattern.expand fs' := by
  have hleads : PathPattern.leads fs = PathPattern.leads fs' := by
    funext path name
    rw [PathPattern.leads, PathPattern.leads, h.isDirectory, h.contains]
  have hnames : PathPattern.entryNames fs = PathPattern.entryNames fs' := by
    funext path
    rw [PathPattern.entryNames, PathPattern.entryNames, h.list]
  funext steps path
  induction steps, path using PathPattern.expand.induct fs with
  | case1 path => rw [PathPattern.expand, PathPattern.expand]
  | case2 name steps path _ ih =>
    rw [PathPattern.expand, PathPattern.expand, hleads, ih]
  | case3 name steps path hnowhere =>
    rw [PathPattern.expand, PathPattern.expand, ← hleads, if_neg hnowhere, if_neg hnowhere]
  | case4 p steps path _ ihdots ihnames =>
    simp only [PathPattern.expand, h.isDirectory, hnames, ihdots, ihnames]
  | case5 p steps path hnowhere =>
    rw [PathPattern.expand, PathPattern.expand, ← h.isDirectory, if_neg hnowhere,
      if_neg hnowhere]
  | case6 path => rw [PathPattern.expand, PathPattern.expand, h.list, h.isDirectory]
  | case7 steps path ih => rw [PathPattern.expand, PathPattern.expand, ih]
  | case8 step steps path hstep ih =>
    simp only [PathPattern.expand, h.list, ih]

theorem paths : PathPattern.paths fs = PathPattern.paths fs' := by
  funext p
  rw [PathPattern.paths, PathPattern.paths, h.expand, h.isDirectory]

/-- Inputs stand for the same paths in the same order. -/
theorem resolve : Inputs.resolve fs = Inputs.resolve fs' := by
  funext inputs
  induction inputs with
  | nil => rfl
  | cons input inputs ih =>
    rw [Inputs.resolve, Inputs.resolve, ih, Inputs.pathsOf, Inputs.pathsOf, h.paths]

theorem readAll (paths : List String) :
    Alike (fun ds ds' ↦ ds.map InputDocument.name = ds'.map InputDocument.name)
      (Inputs.readAll fs paths) (Inputs.readAll fs' paths) := by
  induction paths with
  | nil => exact .ok rfl
  | cons path paths ih =>
    refine ((h.read path).mapError (Failure.source path)).bind fun bytes bytes' _ ↦ ?_
    exact ih.bind fun ds ds' hnames ↦ .ok (congrArg (path :: ·) hnames)

/-- The documents of inputs have the same names in the same order. -/
theorem documents (inputs : List String) :
    Alike (fun ds ds' ↦ ds.map InputDocument.name = ds'.map InputDocument.name)
      (Inputs.documents fs inputs) (Inputs.documents fs' inputs) := by
  rw [Inputs.documents, Inputs.documents, h.resolve]
  refine (Alike.of_eq rfl).bind ?_
  rintro paths _ rfl
  exact h.readAll paths

/-! ### Changes -/

/-- Things of one kind at a place other than the root leave two file systems of one shape. -/
theorem set {p : Place} (hp : p ≠ []) {e e' : Entry} (he : e.isDirectory = e'.isDirectory) :
    SameShape (fs.set p e) (fs'.set p e') where
  workingDirectory := h.workingDirectory
  places := by
    have hothers : ∀ es : List (Place × Entry), (es.filter fun old ↦ old.1 != p).map Prod.fst =
        (es.map Prod.fst).filter (· != p) := by
      intro es
      rw [List.filter_map]
      rfl
    show (p :: (fs.entries.filter fun old ↦ old.1 != p).map Prod.fst).Perm
      (p :: (fs'.entries.filter fun old ↦ old.1 != p).map Prod.fst)
    rw [hothers, hothers]
    exact (h.places.filter _).cons p
  kinds q := by
    rw [get?_set _ _ q hp, get?_set _ _ q hp]
    split
    · exact congrArg some he
    · exact h.kinds q

theorem makeDirectory (path : String) :
    Alike SameShape (fs.makeDirectory path) (fs'.makeDirectory path) := by
  rw [FileSystem.makeDirectory, FileSystem.makeDirectory, h.newPlace?]
  refine (Alike.of_eq rfl).bind ?_
  rintro (- | p) _ rfl
  · exact .error _
  · rcases h.cases p with ⟨hp, hp'⟩ | ⟨hp, hp'⟩ | ⟨_, _, hp, hp'⟩
    · have hroot : p ≠ [] := by
        rintro rfl
        exact absurd hp (by simp [get?])
      simp only [hp, hp']
      exact .ok (h.set hroot rfl)
    · simp only [hp, hp']
      exact .error _
    · simp only [hp, hp']
      exact .error _

/-- A file is written in both, with whatever bytes, or the same is wrong. -/
theorem write (path : String) (bytes bytes' : Bytes) :
    Alike SameShape (fs.write path bytes) (fs'.write path bytes') := by
  have hdirectory : ∀ p, fs.get? p = some .directory ↔ fs'.get? p = some .directory := by
    intro p
    rcases h.cases p with ⟨hp, hp'⟩ | ⟨hp, hp'⟩ | ⟨_, _, hp, hp'⟩ <;> simp [hp, hp']
  rw [FileSystem.write, FileSystem.write, h.newPlace?]
  refine (Alike.of_eq rfl).bind ?_
  rintro (- | p) _ rfl
  · exact .error _
  · simp only [hdirectory]
    split
    · exact .error _
    · next hfree =>
      have hroot : p ≠ [] := by
        rintro rfl
        exact hfree (Or.inr rfl)
      exact .ok (h.set hroot rfl)

theorem ensure (path : String) :
    SameShape (fs.ensure path).1 (fs'.ensure path).1 ∧
      (fs.ensure path).2 = (fs'.ensure path).2 := by
  rw [FileSystem.ensure, FileSystem.ensure]
  rcases (h.makeDirectory path).exists_eq with ⟨e, hx, hy⟩ | ⟨after, after', hx, hy, hafter⟩
  · rw [hx, hy, h.isDirectory]
    exact ⟨h, rfl⟩
  · rw [hx, hy]
    exact ⟨hafter, rfl⟩

theorem createWithin (fuel : Nat) (path : String) :
    SameShape (FileSystem.createWithin fuel fs path).1 (FileSystem.createWithin fuel fs' path).1 ∧
      (FileSystem.createWithin fuel fs path).2 = (FileSystem.createWithin fuel fs' path).2 := by
  induction fuel generalizing path with
  | zero => exact ⟨h, rfl⟩
  | succ fuel ih =>
    rw [FileSystem.createWithin, FileSystem.createWithin]
    split
    · exact ⟨h, rfl⟩
    rcases (h.makeDirectory path).exists_eq with ⟨e, hx, hy⟩ | ⟨_, _, hx, hy, -⟩
    · rw [hx, hy]
      split
      · -- a directory on the way to it is missing as well
        split
        · exact ⟨h, rfl⟩
        next parent _ =>
          obtain ⟨hparent, hfailure⟩ := ih parent
          rcases hmade : FileSystem.createWithin fuel fs parent with ⟨after, e⟩
          rcases hmade' : FileSystem.createWithin fuel fs' parent with ⟨after', e'⟩
          rw [hmade, hmade'] at hparent hfailure
          obtain rfl : e = e' := hfailure
          cases e with
          | none => exact hparent.ensure path
          | some e => exact ⟨hparent, rfl⟩
      · exact h.ensure path
    · rw [hx, hy]
      exact h.ensure path

/-- Directories are made in both, and the same is wrong in the end, if anything is. -/
theorem createAll (path : String) :
    SameShape (fs.createAll path).1 (fs'.createAll path).1 ∧
      (fs.createAll path).2 = (fs'.createAll path).2 :=
  h.createWithin _ path

end SameShape

end FileSystem

end JsonEmbed
