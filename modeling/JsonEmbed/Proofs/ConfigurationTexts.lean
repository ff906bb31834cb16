import JsonEmbed.Options.Reader
import JsonEmbed.Proofs.StringTexts

/-!
# The texts of a configuration

A grammar for configurations, apart from how they are read. An option is given a string or null, or
it is given a name as the one key of an object with null under it, which is a second way to write
one of several names. Options come as the members of an object, each with its key, or as the
elements of an array, in their order. What all this says is left to `Key.set?`: the grammar knows
keys and values, not which value is meant for which key.

A text begins with at most one thing of each kind (`GivenText.unique`, `Items.unique`), so the
options of an object and the way each is written can be spoken of
(`ObjectText.unique`). `Documented` is what a configuration is said to be; `Overrun`, `Tagged` and
`Listed` are three ways to be something else that still gives every option a value of its form.
-/

namespace JsonEmbed

namespace Options

open Scanner

/-- What a text can give for an option. -/
inductive Given where
  | text (s : String)
  | null
  /-- An object with a name as its one key, and null under it. -/
  | tagged (name : String)
  deriving DecidableEq

/-- `GivenText g s r`: the text `s` begins with `g`, and `r` is left. -/
inductive GivenText : Given → Bytes → Bytes → Prop where
  | text {t : String} {s r : Bytes} : StringText t s r → GivenText (.text t) s r
  | null {r : Bytes} : GivenText .null (0x6e :: (ull ++ r)) r
  | tagged {name : String} {s t u v r : Bytes} : StringText name (skipBlank s) t →
      skipBlank t = 0x3a :: u → skipBlank u = 0x6e :: (ull ++ v) → skipBlank v = 0x7d :: r →
      GivenText (.tagged name) (0x7b :: s) r

theorem givenText_text_iff {t : String} {s r : Bytes} :
    GivenText (.text t) s r ↔ StringText t s r :=
  ⟨fun | .text h => h, .text⟩

theorem givenText_null_iff {s r : Bytes} : GivenText .null s r ↔ s = 0x6e :: (ull ++ r) :=
  ⟨fun | .null => rfl, fun h ↦ h ▸ .null⟩

theorem givenText_tagged_iff {name : String} {s r : Bytes} :
    GivenText (.tagged name) s r ↔ ∃ s' t u v, s = 0x7b :: s' ∧ StringText name (skipBlank s') t ∧
      skipBlank t = 0x3a :: u ∧ skipBlank u = 0x6e :: (ull ++ v) ∧ skipBlank v = 0x7d :: r := by
  constructor
  · rintro ⟨⟩
    exact ⟨_, _, _, _, rfl, ‹_›, ‹_›, ‹_›, ‹_›⟩
  · rintro ⟨s', t, u, v, rfl, hname, hcolon, hnull, hbrace⟩
    exact .tagged hname hcolon hnull hbrace

/-- `MemberText e s r`: the text `s` begins with an option's key and what it is given. -/
def MemberText (e : Key × Given) (s r : Bytes) : Prop :=
  ∃ t u, StringText e.1.name s t ∧ skipBlank t = 0x3a :: u ∧ GivenText e.2 (skipBlank u) r

/-- Where an item of a list begins: after a comma, unless it is the first. -/
inductive ItemAt : Bool → Bytes → Bytes → Prop where
  | first {s : Bytes} : ItemAt true s (skipBlank s)
  | later {s t : Bytes} : skipBlank s = 0x2c :: t → ItemAt false s (skipBlank t)

theorem itemAt_true_iff {s t : Bytes} : ItemAt true s t ↔ t = skipBlank s :=
  ⟨fun | .first => rfl, fun h ↦ h ▸ .first⟩

theorem itemAt_false_iff {s t : Bytes} :
    ItemAt false s t ↔ ∃ u, skipBlank s = 0x2c :: u ∧ t = skipBlank u :=
  ⟨fun | .later h => ⟨_, h, rfl⟩, fun ⟨_, h, ht⟩ ↦ ht ▸ .later h⟩

section Items

variable {α : Type}

/-- `Items close item first xs s r`: the text `s` begins with the items `xs`, separated by commas,
and the closing mark after them. Whether no item was before them is said by `first`. -/
inductive Items (close : UInt8) (item : α → Bytes → Bytes → Prop) :
    Bool → List α → Bytes → Bytes → Prop where
  | close {first : Bool} {s r : Bytes} : skipBlank s = close :: r → Items close item first [] s r
  | item {first : Bool} {x : α} {xs : List α} {s t u r : Bytes} : ItemAt first s t → item x t u →
      Items close item false xs u r → Items close item first (x :: xs) s r

variable {close : UInt8} {item : α → Bytes → Bytes → Prop} {first : Bool} {s r : Bytes}

theorem items_nil_iff : Items close item first [] s r ↔ skipBlank s = close :: r :=
  ⟨fun | .close h => h, .close⟩

theorem items_cons_iff {x : α} {xs : List α} :
    Items close item first (x :: xs) s r ↔
      ∃ t u, ItemAt first s t ∧ item x t u ∧ Items close item false xs u r :=
  ⟨fun | .item hat hx hxs => ⟨_, _, hat, hx, hxs⟩, fun ⟨_, _, hat, hx, hxs⟩ ↦ .item hat hx hxs⟩

end Items

/-- The text `s` begins with an object of options, and `r` is left. -/
def ObjectText (es : List (Key × Given)) (s r : Bytes) : Prop :=
  ∃ t, skipBlank s = 0x7b :: t ∧ Items 0x7d MemberText true es t r

/-- The text `s` begins with an array of what options are given, and `r` is left. -/
def ArrayText (gs : List Given) (s r : Bytes) : Prop :=
  ∃ t, skipBlank s = 0x5b :: t ∧ Items 0x5d GivenText true gs t r

/-! ### What is given for an option -/

/-- A string. -/
def Given.text? : Given → Option String
  | text s => some s
  | _ => none

/-- A string, or null for none. -/
def Given.textOrNull? : Given → Option (Option String)
  | text s => some (some s)
  | null => some none
  | tagged _ => none

/-- A name, written either way. -/
def Given.name? : Given → Option String
  | text s => some s
  | null => none
  | tagged s => some s

/-- Options with one of them set to what is given for it. There are none if this has not the form
of the option. -/
def Key.set? (k : Key) (g : Given) (o : Options) : Option Options :=
  match k with
  | rootName => g.text?.map fun s ↦ { o with rootName := s }
  | nestedLayout => (g.name?.bind NestedLayout.ofName?).map fun l ↦ { o with nestedLayout := l }
  | arrayInitializer =>
    (g.name?.bind ArrayInitializer.ofName?).map fun i ↦ { o with arrayInitializer := i }
  | pointer => g.textOrNull?.map fun p ↦ { o with pointer := p }
  | filter => g.textOrNull?.map fun f ↦ { o with filter := f }

/-- Options with several of them set, one after another. -/
def setAll? (es : List (Key × Given)) (o : Options) : Option Options :=
  es.foldlM (fun o e ↦ e.1.set? e.2 o) o

/-- What is given has the form of the option. -/
def Key.Takes (k : Key) (g : Given) : Prop :=
  (k.set? g {}).isSome

/-- What is given has the form that is documented for the option. -/
def Key.Documents : Key → Given → Prop
  | rootName, .text _ => True
  | nestedLayout, .text s => s = "union" ∨ s = "struct"
  | arrayInitializer, .text s => s = "values" ∨ s = "legacy_index"
  | pointer, .text _ => True
  | pointer, .null => True
  | filter, .text _ => True
  | filter, .null => True
  | _, _ => False

/-- Whether what is given has the form of the option does not depend on the other options. -/
theorem Key.isSome_set? (k : Key) (g : Given) (o : Options) : (k.set? g o).isSome ↔ k.Takes g := by
  rw [Takes]
  cases k <;> simp only [set?, Option.isSome_map]

theorem setAll?_cons (e : Key × Given) (es : List (Key × Given)) (o : Options) :
    setAll? (e :: es) o = (e.1.set? e.2 o).bind (setAll? es) :=
  List.foldlM_cons

theorem isSome_setAll? (es : List (Key × Given)) (o : Options) :
    (setAll? es o).isSome ↔ ∀ e ∈ es, e.1.Takes e.2 := by
  induction es generalizing o with
  | nil => simp [setAll?]
  | cons e es ih =>
    rw [List.forall_mem_cons, ← e.1.isSome_set? e.2 o, setAll?_cons]
    cases e.1.set? e.2 o with
    | none => simp
    | some o' => simpa only [Option.bind_some, Option.isSome_some, true_and] using ih o'

theorem isSome_layout (s : String) :
    (NestedLayout.ofName? s).isSome ↔ s = "union" ∨ s = "struct" := by
  fun_cases NestedLayout.ofName? s <;> simp_all

theorem isSome_initializer (s : String) :
    (ArrayInitializer.ofName? s).isSome ↔ s = "values" ∨ s = "legacy_index" := by
  fun_cases ArrayInitializer.ofName? s <;> simp_all

/-- The documented forms are all forms but one: no name is under a key of its own. -/
theorem Key.documents_iff (k : Key) (g : Given) :
    k.Documents g ↔ k.Takes g ∧ ∀ name, g ≠ .tagged name := by
  cases k <;> cases g <;>
    simp [Documents, Takes, set?, Given.text?, Given.name?, Given.textOrNull?, isSome_layout,
      isSome_initializer]

/-! ### A text begins with one thing -/

/-- No value begins at the end of the text or at a bracket. -/
theorem GivenText.not_nil {g : Given} {r : Bytes} : ¬GivenText g [] r := by
  rintro ⟨body, h, -⟩
  cases h

theorem GivenText.not_bracket {g : Given} {s r : Bytes} : ¬GivenText g (0x5d :: s) r := by
  intro h
  generalize hs : (0x5d : UInt8) :: s = t at h
  cases h with
  | text ht =>
    obtain ⟨body, rfl, -⟩ := ht
    exact absurd (List.cons.inj hs).1 (by decide)
  | null => exact absurd (List.cons.inj hs).1 (by decide)
  | tagged => exact absurd (List.cons.inj hs).1 (by decide)

theorem GivenText.unique {g g' : Given} {s r r' : Bytes} (h : GivenText g s r)
    (h' : GivenText g' s r') : g = g' ∧ r = r' := by
  cases h with
  | text ht =>
    obtain ⟨body, rfl, -⟩ := id ht
    cases h' with
    | text ht' =>
      obtain ⟨rfl, rfl⟩ := ht.unique ht'
      exact ⟨rfl, rfl⟩
  | null =>
    generalize hs : (0x6e : UInt8) :: (ull ++ r) = s at h'
    cases h' with
    | text ht' =>
      obtain ⟨body, rfl, -⟩ := ht'
      exact absurd (List.cons.inj hs).1 (by decide)
    | null => exact ⟨rfl, List.append_cancel_left (List.cons.inj hs).2⟩
    | tagged => exact absurd (List.cons.inj hs).1 (by decide)
  | tagged hname hcolon hnull hbrace =>
    cases h' with
    | text ht' =>
      obtain ⟨body, hbody, -⟩ := ht'
      exact absurd (List.cons.inj hbody).1 (by decide)
    | tagged hname' hcolon' hnull' hbrace' =>
      obtain ⟨rfl, rfl⟩ := hname.unique hname'
      obtain rfl := (List.cons.inj (hcolon.symm.trans hcolon')).2
      obtain rfl := List.append_cancel_left (List.cons.inj (hnull.symm.trans hnull')).2
      exact ⟨rfl, (List.cons.inj (hbrace.symm.trans hbrace')).2⟩

theorem Key.ofName?_eq_some_iff {name : String} {k : Key} :
    Key.ofName? name = some k ↔ name = k.name := by
  constructor
  · intro h
    have hname := List.find?_some (show all.find? (fun k ↦ k.name == name) = some k from h)
    exact (beq_iff_eq.1 hname).symm
  · rintro rfl
    cases k <;> rfl

theorem Key.name_injective : Function.Injective Key.name := by
  intro j k
  cases j <;> cases k <;> simp [Key.name]

theorem MemberText.unique {e e' : Key × Given} {s r r' : Bytes} (h : MemberText e s r)
    (h' : MemberText e' s r') : e = e' ∧ r = r' := by
  obtain ⟨t, u, hkey, hcolon, hgiven⟩ := h
  obtain ⟨t', u', hkey', hcolon', hgiven'⟩ := h'
  obtain ⟨hname, rfl⟩ := hkey.unique hkey'
  obtain rfl := (List.cons.inj (hcolon.symm.trans hcolon')).2
  obtain ⟨hg, rfl⟩ := hgiven.unique hgiven'
  exact ⟨Prod.ext (Key.name_injective hname) hg, rfl⟩

theorem ItemAt.unique {first : Bool} {s t t' : Bytes} (h : ItemAt first s t)
    (h' : ItemAt first s t') : t = t' := by
  cases h with
  | first =>
    cases h'
    rfl
  | later hcomma =>
    cases h' with
    | later hcomma' => rw [(List.cons.inj (hcomma.symm.trans hcomma')).2]

section Items

variable {α : Type} {close : UInt8} {item : α → Bytes → Bytes → Prop} (hcomma : close ≠ 0x2c)
  (hmark : ∀ (x : α) (s r : Bytes), ¬item x (close :: s) r)

include hcomma hmark

/-- Where a list is closed no item begins. -/
theorem ItemAt.not_closed {first : Bool} {x : α} {s t u r : Bytes} (h : ItemAt first s t)
    (hx : item x t u) : skipBlank s ≠ close :: r := by
  intro hclose
  cases h with
  | first => exact hmark _ _ _ (hclose ▸ hx)
  | later h => exact hcomma (List.cons.inj (hclose.symm.trans h)).1

theorem Items.unique
    (hitem : ∀ {x y : α} {s r r' : Bytes}, item x s r → item y s r' → x = y ∧ r = r')
    {first : Bool} {xs ys : List α} {s r r' : Bytes} (h : Items close item first xs s r)
    (h' : Items close item first ys s r') : xs = ys ∧ r = r' := by
  induction h generalizing ys with
  | close hclose =>
    cases h' with
    | close hclose' => exact ⟨rfl, (List.cons.inj (hclose.symm.trans hclose')).2⟩
    | item hat hy _ => exact absurd hclose (hat.not_closed hcomma hmark hy)
  | item hat hx _ ih =>
    cases h' with
    | close hclose => exact absurd hclose (hat.not_closed hcomma hmark hx)
    | item hat' hy hrest =>
      obtain rfl := hat.unique hat'
      obtain ⟨rfl, rfl⟩ := hitem hx hy
      obtain ⟨rfl, rfl⟩ := ih hrest
      exact ⟨rfl, rfl⟩

end Items

theorem not_memberText_brace (e : Key × Given) (s r : Bytes) : ¬MemberText e (0x7d :: s) r := by
  rintro ⟨t, u, ⟨body, hbody, -⟩, -⟩
  exact absurd (List.cons.inj hbody).1 (by decide)

/-- A text begins with at most one object of options. -/
theorem ObjectText.unique {es es' : List (Key × Given)} {s r r' : Bytes} (h : ObjectText es s r)
    (h' : ObjectText es' s r') : es = es' ∧ r = r' := by
  obtain ⟨t, hbrace, hitems⟩ := h
  obtain ⟨t', hbrace', hitems'⟩ := h'
  obtain rfl := (List.cons.inj (hbrace.symm.trans hbrace')).2
  exact hitems.unique (by decide) not_memberText_brace MemberText.unique hitems'

/-- An object is no array. -/
theorem ObjectText.not_arrayText {es : List (Key × Given)} {gs : List Given} {s r r' : Bytes}
    (h : ObjectText es s r) : ¬ArrayText gs s r' := by
  rintro ⟨t', hbracket, -⟩
  obtain ⟨t, hbrace, -⟩ := h
  exact absurd (List.cons.inj (hbrace.symm.trans hbracket)).1 (by decide)

/-! ### What a configuration is said to be, and what else gives every option its form -/

/-- No option is given twice, and each is given something of its form. -/
def Fits (es : List (Key × Given)) : Prop :=
  (es.map Prod.fst).Nodup ∧ ∀ e ∈ es, e.1.Takes e.2

/-- The whole text, but for blanks around it, is an object in which no key is repeated and each
option is given something of the form that is documented for it. -/
def Documented (b : Bytes) : Prop :=
  ∃ es r, ObjectText es b r ∧ skipBlank r = [] ∧ (es.map Prod.fst).Nodup ∧
    ∀ e ∈ es, e.1.Documents e.2

/-- An object, and something after it that is not blank. -/
def Overrun (b : Bytes) : Prop :=
  ∃ es r, ObjectText es b r ∧ skipBlank r ≠ [] ∧ Fits es

/-- An object in which an option is given a name as the key of another object. -/
def Tagged (b : Bytes) : Prop :=
  ∃ es r, ObjectText es b r ∧ Fits es ∧ ∃ e ∈ es, ∃ name, e.2 = .tagged name

/-- An array of what the options are given, in their order and from the first on. -/
def Listed (b : Bytes) : Prop :=
  ∃ gs r, ArrayText gs b r ∧ gs.length ≤ Key.all.length ∧ ∀ e ∈ Key.all.zip gs, e.1.Takes e.2

/-- An object that gives every option something of its form is a configuration as it is said to be,
unless something is after it or a name has a key of its own. -/
theorem exists_fits_iff {b : Bytes} :
    (∃ es r, ObjectText es b r ∧ Fits es) ↔ Documented b ∨ Overrun b ∨ Tagged b := by
  constructor
  · rintro ⟨es, r, hobject, hfits⟩
    by_cases hrest : skipBlank r = []
    on_goal 2 => exact .inr (.inl ⟨es, r, hobject, hrest, hfits⟩)
    by_cases htagged : ∃ e ∈ es, ∃ name, e.2 = .tagged name
    · exact .inr (.inr ⟨es, r, hobject, hfits, htagged⟩)
    · refine .inl ⟨es, r, hobject, hrest, hfits.1, fun e he ↦ ?_⟩
      exact (e.1.documents_iff e.2).2 ⟨hfits.2 e he, fun name h ↦ htagged ⟨e, he, name, h⟩⟩
  · rintro (⟨es, r, hobject, -, hnodup, hes⟩ | ⟨es, r, hobject, -, hfits⟩ |
      ⟨es, r, hobject, hfits, -⟩)
    · exact ⟨es, r, hobject, hnodup, fun e he ↦ ((e.1.documents_iff e.2).1 (hes e he)).1⟩
    · exact ⟨es, r, hobject, hfits⟩
    · exact ⟨es, r, hobject, hfits⟩

theorem Documented.not_overrun {b : Bytes} (h : Documented b) : ¬Overrun b := by
  rintro ⟨es', r', hobject', hrest', -⟩
  obtain ⟨es, r, hobject, hrest, -⟩ := h
  exact hrest' ((hobject.unique hobject').2 ▸ hrest)

theorem Documented.not_tagged {b : Bytes} (h : Documented b) : ¬Tagged b := by
  rintro ⟨es', r', hobject', -, e, he, name, hname⟩
  obtain ⟨es, r, hobject, -, -, hes⟩ := h
  obtain ⟨rfl, -⟩ := hobject.unique hobject'
  exact ((e.1.documents_iff e.2).1 (hes e he)).2 name hname

theorem Documented.not_listed {b : Bytes} (h : Documented b) : ¬Listed b := by
  rintro ⟨gs, r', harray, -⟩
  obtain ⟨es, r, hobject, -⟩ := h
  exact hobject.not_arrayText harray

end Options

end JsonEmbed
