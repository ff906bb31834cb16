import JsonEmbed.Proofs.ConfigurationTexts
import JsonEmbed.Proofs.Places
import Mathlib.Data.List.DropRight

/-!
# What is read as a configuration

Reading a configuration finds exactly its texts: each reader is shown to succeed where the grammar
has a derivation, with the bytes left that the grammar leaves. What is given for an option comes
first, for all options in one form (`finds_readOption`). Members and elements follow, each from what
one step reads; the keys seen so far and the bound on members turn into the condition that no key is
repeated (`members_eq_ok_iff`).

A configuration is not read to the end of the text (`configuration_eq_ok_iff` puts no condition on
what is left), and this is one of the ways in which more is accepted than an object with documented
members (`accepts_documented_iff`).
-/

namespace JsonEmbed

namespace Options

open Scanner

/-! ### The parts -/

theorem pure_pair_eq_ok_iff {ε α : Type} {a a' : α} {r r' : Bytes} :
    (pure (a, r) : Except ε (α × Bytes)) = .ok (a', r') ↔ a = a' ∧ r = r' := by
  simp [pure, Except.pure]

theorem skipBlank_skipBlank (s : Bytes) : skipBlank (skipBlank s) = skipBlank s :=
  List.dropWhile_idempotent _ _

theorem keyword_eq_ok_iff {cs s r : Bytes} : keyword cs s = .ok r ↔ s = cs ++ r := by
  fun_induction keyword cs s with
  | case1 s => simp
  | case2 => simp [Fault.at]
  | case3 cs b s ih => simp [ih]
  | case4 c cs b s hne => simp [Fault.at, hne]

theorem noticedOn_eq_ok_iff {α : Type} {path : List ConfigStep} {x : Except Fault α} {a : α} :
    noticedOn path x = .ok a ↔ x = .ok a := by
  cases x <;> simp [noticedOn, textFault]

theorem faultWithin_ne_ok {α : Type} {path : List ConfigStep} {s : Bytes} {cause : Cause} {a : α} :
    faultWithin path s cause ≠ .ok a := by
  simp [faultWithin]

theorem wrongType_ne_ok {α : Type} (path : List ConfigStep) (expected : String) (s : Bytes)
    (a : α) : wrongType path expected s ≠ .ok a := by
  fun_cases wrongType path expected s
  case case1 | case7 | case8 | case10 => nofun
  case case2 | case3 | case4 | case5 | case6 | case9 => exact bind_ne_ok fun _ ↦ nofun

theorem string_eq_ok_iff {path : List ConfigStep} {expected text : String} {s r : Bytes} :
    string path expected s = .ok (text, r) ↔ StringText text (skipBlank s) r := by
  rw [string, stringText_iff]
  split
  · next h => simp [faultAt, h]
  · next body h => simp [noticedOn_eq_ok_iff, h]
  · next h =>
    refine iff_of_false (wrongType_ne_ok _ _ _ _) ?_
    rintro ⟨body, hbody, -⟩
    exact h body hbody

theorem unit_eq_ok_iff {path : List ConfigStep} {s r : Bytes} :
    unit path s = .ok r ↔ skipBlank s = 0x6e :: (ull ++ r) := by
  rw [unit]
  split
  · next h => simp [faultAt, h]
  · next t h => simp [noticedOn_eq_ok_iff, keyword_eq_ok_iff, h]
  · next h => exact iff_of_false (wrongType_ne_ok _ _ _ _) fun h' ↦ h _ h'

theorem stringOrNull_eq_ok_iff {path : List ConfigStep} {text? : Option String} {s r : Bytes} :
    stringOrNull path s = .ok (text?, r) ↔
      (text? = none ∧ GivenText .null (skipBlank s) r) ∨
      ∃ t, text? = some t ∧ GivenText (.text t) (skipBlank s) r := by
  simp only [givenText_null_iff, givenText_text_iff]
  rw [stringOrNull]
  split
  · next t h =>
    have hstring : ∀ text, ¬StringText text (0x6e :: t) r := by
      rintro text ⟨body, hbody, -⟩
      exact absurd (List.cons.inj hbody).1 (by decide)
    rw [h]
    simp only [hstring, and_false, exists_false, or_false, List.cons.injEq, true_and,
      ← keyword_eq_ok_iff]
    cases keyword ull t with
    | error f => simp [textFault]
    | ok rest =>
      simp only [Except.ok.injEq, Prod.mk.injEq]
      exact and_congr_left' eq_comm
  · next h =>
    have hnull : ¬skipBlank s = 0x6e :: (ull ++ r) := fun h' ↦ h _ h'
    simp only [bind_eq_ok_iff, Prod.exists, string_eq_ok_iff, skipBlank_skipBlank, hnull, and_false,
      false_or]
    constructor
    · rintro ⟨text, rest, htext, hdone⟩
      obtain ⟨rfl, rfl⟩ := pure_pair_eq_ok_iff.1 hdone
      exact ⟨text, rfl, htext⟩
    · rintro ⟨text, rfl, htext⟩
      exact ⟨text, r, htext, rfl⟩

section Variants

variable {α : Type} {path : List ConfigStep} {known : List (String × α)} {name : String} {a : α}
  {s r : Bytes}

theorem variantName_eq_ok_iff :
    variantName path known s = .ok ((name, a), r) ↔
      StringText name (skipBlank s) r ∧ known.lookup name = some a := by
  rw [variantName]
  simp only [bind_eq_ok_iff, Prod.exists, string_eq_ok_iff]
  constructor
  · rintro ⟨name', r', hname, h⟩
    split at h
    · next a' ha =>
      obtain ⟨⟨rfl, rfl⟩, rfl⟩ : (name' = name ∧ a' = a) ∧ r' = r := by
        simpa [pure, Except.pure] using h
      exact ⟨hname, ha⟩
    · cases h
  · rintro ⟨hname, ha⟩
    refine ⟨name, r, hname, ?_⟩
    simp [ha, pure, Except.pure]

theorem variantKey_eq_ok_iff :
    variantKey path known s = .ok ((name, a), r) ↔
      StringText name (skipBlank s) r ∧ known.lookup name = some a := by
  rw [variantKey]
  split
  · next h => simp [faultAt, h, StringText]
  · next t h => rw [variantName_eq_ok_iff, ← h, skipBlank_skipBlank]
  · next t h => simp [faultAt, h, StringText]
  · next h _ =>
    refine iff_of_false faultWithin_ne_ok ?_
    rintro ⟨⟨body, hbody, -⟩, -⟩
    exact h body hbody

/-- **One of several names** is read from a string, or from an object with the name as its key. -/
theorem variant_eq_ok_iff :
    variant path known s = .ok (a, r) ↔
      ∃ name, (GivenText (.text name) (skipBlank s) r ∨ GivenText (.tagged name) (skipBlank s) r) ∧
        known.lookup name = some a := by
  simp only [givenText_text_iff, givenText_tagged_iff]
  rw [variant]
  split
  · next h => simp [faultAt, h, StringText]
  · next t h =>
    simp only [bind_eq_ok_iff, Prod.exists, variantName_eq_ok_iff]
    rw [← h, skipBlank_skipBlank, h]
    constructor
    · rintro ⟨name, a', r', ⟨hname, ha⟩, hdone⟩
      obtain ⟨rfl, rfl⟩ := pure_pair_eq_ok_iff.1 hdone
      exact ⟨name, .inl hname, ha⟩
    · rintro ⟨name, hname | ⟨s', t', u, v, hbrace, -⟩, ha⟩
      · exact ⟨name, a, r, ⟨hname, ha⟩, rfl⟩
      · exact absurd (List.cons.inj hbrace).1 (by decide)
  · next t h =>
    simp only [bind_eq_ok_iff, Prod.exists, variantKey_eq_ok_iff]
    rw [h]
    constructor
    · rintro ⟨name, a', t', ⟨hname, ha⟩, hvalue⟩
      split at hvalue
      · cases hvalue
      on_goal 2 => cases hvalue
      next u hcolon =>
      rw [pure_bind] at hvalue
      obtain ⟨v, hnull, hdone⟩ := bind_eq_ok_iff.1 hvalue
      rw [unit_eq_ok_iff] at hnull
      split at hdone
      · cases hdone
      on_goal 2 => cases hdone
      next r' hbrace =>
      obtain ⟨rfl, rfl⟩ := pure_pair_eq_ok_iff.1 hdone
      exact ⟨name, .inr ⟨t, t', u, v, rfl, hname, hcolon, hnull, hbrace⟩, ha⟩
    · rintro ⟨name, ⟨body, hbody, -⟩ | ⟨t₀, t', u, v, ht, hname, hcolon, hnull, hbrace⟩, ha⟩
      · exact absurd (List.cons.inj hbody).1 (by decide)
      · obtain rfl := (List.cons.inj ht).2
        refine ⟨name, a, t', ⟨hname, ha⟩, ?_⟩
        simp only [hcolon, pure_bind]
        refine bind_eq_ok_iff.2 ⟨v, unit_eq_ok_iff.2 hnull, ?_⟩
        simp only [hbrace]
        rfl
  · next hempty hquote hbrace =>
    refine iff_of_false faultWithin_ne_ok ?_
    rintro ⟨name, ⟨body, hbody, -⟩ | ⟨t, -, -, -, ht, -⟩, -⟩
    · exact hquote body hbody
    · exact hbrace t ht

end Variants

/-! ### One option -/

section

variable {α β : Type} {reader : Bytes → ConfigRead (α × Bytes)} {value? : Given → Option α}

/-- A reader that finds what is given and gives a value for it, where there is one. -/
def Finds (reader : Bytes → ConfigRead (α × Bytes)) (value? : Given → Option α) : Prop :=
  ∀ (s : Bytes) (a : α) (r : Bytes),
    reader s = .ok (a, r) ↔ ∃ g, GivenText g (skipBlank s) r ∧ value? g = some a

theorem Finds.map (h : Finds reader value?) (f : α → β) :
    Finds (fun s ↦ do
      let (a, r) ← reader s
      return (f a, r)) fun g ↦ (value? g).map f := by
  intro s b r
  simp only [bind_eq_ok_iff, Prod.exists, pure_pair_eq_ok_iff, Option.map_eq_some_iff]
  constructor
  · rintro ⟨a, r', ha, rfl, rfl⟩
    obtain ⟨g, hg, hvalue⟩ := (h s a r').1 ha
    exact ⟨g, hg, a, hvalue, rfl⟩
  · rintro ⟨g, hg, a, hvalue, rfl⟩
    exact ⟨a, r, (h s a r).2 ⟨g, hg, hvalue⟩, rfl, rfl⟩

end

theorem finds_string (path : List ConfigStep) (expected : String) :
    Finds (string path expected) Given.text? := by
  intro s text r
  rw [string_eq_ok_iff]
  constructor
  · exact fun h ↦ ⟨.text text, .text h, rfl⟩
  · rintro ⟨g, hg, hvalue⟩
    cases g <;> cases hvalue
    exact givenText_text_iff.1 hg

theorem finds_stringOrNull (path : List ConfigStep) :
    Finds (stringOrNull path) Given.textOrNull? := by
  intro s text? r
  rw [stringOrNull_eq_ok_iff]
  constructor
  · rintro (⟨rfl, hnull⟩ | ⟨t, rfl, ht⟩)
    · exact ⟨.null, hnull, rfl⟩
    · exact ⟨.text t, ht, rfl⟩
  · rintro ⟨g, hg, hvalue⟩
    cases g <;> cases hvalue
    · exact .inr ⟨_, rfl, hg⟩
    · exact .inl ⟨rfl, hg⟩

theorem finds_variant {α : Type} (path : List ConfigStep) {known : List (String × α)}
    {ofName? : String → Option α} (hknown : ∀ name, known.lookup name = ofName? name) :
    Finds (variant path known) fun g ↦ g.name?.bind ofName? := by
  intro s a r
  simp only [variant_eq_ok_iff, hknown]
  constructor
  · rintro ⟨name, hname | hname, ha⟩
    · exact ⟨.text name, hname, ha⟩
    · exact ⟨.tagged name, hname, ha⟩
  · rintro ⟨g, hg, ha⟩
    cases g with
    | text name => exact ⟨name, .inl hg, ha⟩
    | null => cases ha
    | tagged name => exact ⟨name, .inr hg, ha⟩

theorem lookup_layouts (name : String) : layouts.lookup name = NestedLayout.ofName? name := by
  fun_cases NestedLayout.ofName? name with
  | case1 => rfl
  | case2 => rfl
  | case3 _ hunion hstruct =>
    simpa [List.lookup_eq_none_iff, layouts, NestedLayout.name] using ⟨hunion, hstruct⟩

theorem lookup_initializers (name : String) :
    initializers.lookup name = ArrayInitializer.ofName? name := by
  fun_cases ArrayInitializer.ofName? name with
  | case1 => rfl
  | case2 => rfl
  | case3 _ hvalues hindices =>
    simpa [List.lookup_eq_none_iff, initializers, ArrayInitializer.name] using ⟨hvalues, hindices⟩

/-- **An option is read** exactly if what is given has its form. -/
theorem finds_readOption (path : List ConfigStep) (o : Options) (key : Key) :
    Finds (readOption path o key) fun g ↦ key.set? g o := by
  cases key with
  | rootName => exact (finds_string path _).map fun s ↦ { o with rootName := s }
  | nestedLayout =>
    exact (finds_variant path lookup_layouts).map fun l ↦ { o with nestedLayout := l }
  | arrayInitializer =>
    exact (finds_variant path lookup_initializers).map fun i ↦ { o with arrayInitializer := i }
  | pointer => exact (finds_stringOrNull path).map fun p ↦ { o with pointer := p }
  | filter => exact (finds_stringOrNull path).map fun f ↦ { o with filter := f }

/-! ### Members -/

theorem nextKey_eq_ok_iff {first : Bool} {name? : Option String} {s r : Bytes} :
    nextKey first s = .ok (name?, r) ↔
      (name? = none ∧ skipBlank s = 0x7d :: r) ∨
      ∃ name, name? = some name ∧ ∃ t, ItemAt first s t ∧ StringText name t r := by
  rw [nextKey.eq_def]
  extract_lets path key
  have hkey (body : Bytes) : key body = .ok (name?, r) ↔
      ∃ name, name? = some name ∧ StringText name (0x22 :: body) r := by
    simp only [key, bind_eq_ok_iff, Prod.exists, noticedOn_eq_ok_iff, pure_pair_eq_ok_iff,
      StringText, Scanner.string_eq_ok_iff]
    grind
  clear_value key
  cases first with
  | true =>
    simp only [itemAt_true_iff, exists_eq_left]
    split
    · next h => simp [faultAt, h, StringText]
    · next t h => simp [h, StringText, eq_comm]
    · next t h =>
      simp only [if_true, hkey, h]
      simp
    · next t h => simp [faultAt, h, StringText]
    · next hempty hbrace hquote hcomma =>
      refine iff_of_false faultWithin_ne_ok ?_
      rintro (⟨-, h⟩ | ⟨name, -, body, h, -⟩)
      · exact hbrace r h
      · exact hquote body h
  | false =>
    simp only [itemAt_false_iff]
    split
    · next h => simp [faultAt, h]
    · next t h => simp [h, eq_comm]
    · next t h => simp [faultAt, h]
    · next t h =>
      simp only [Bool.false_eq_true, if_false, h, List.cons.injEq, true_and, exists_eq_left']
      split
      · next ht => simp [faultAt, ht, StringText]
      · next u ht =>
        simp only [hkey, ht]
        simp
      · next u ht => simp [faultAt, ht, StringText]
      · next hempty hquote hbrace =>
        refine iff_of_false faultWithin_ne_ok ?_
        rintro (⟨-, h, -⟩ | ⟨name, -, t', rfl, body, h, -⟩)
        · exact absurd h (by decide)
        · exact hquote body h
    · next hempty hbrace hquote hcomma =>
      refine iff_of_false faultWithin_ne_ok ?_
      rintro (⟨-, h⟩ | ⟨name, -, t, ⟨u, h, -⟩, -⟩)
      · exact hbrace r h
      · exact hcomma u h

/-- One step of reading members: the brace, or a key that was not seen and what it is given. -/
theorem members_succ_eq_ok_iff {bound : Nat} {seen : List Key} {o o' : Options} {s r : Bytes} :
    members (bound + 1) seen o s = .ok (o', r) ↔
      (skipBlank s = 0x7d :: r ∧ o = o') ∨
      ∃ e t u next, ItemAt seen.isEmpty s t ∧ MemberText e t u ∧ e.1 ∉ seen ∧
        e.1.set? e.2 o = some next ∧ members bound (e.1 :: seen) next u = .ok (o', r) := by
  rw [members, bind_eq_ok_iff]
  constructor
  · rintro ⟨⟨name?, t'⟩, hnext, h⟩
    obtain ⟨rfl, hbrace⟩ | ⟨name, rfl, t, hat, hname⟩ := nextKey_eq_ok_iff.1 hnext
    · obtain ⟨rfl, rfl⟩ := pure_pair_eq_ok_iff.1 h
      exact .inl ⟨hbrace, rfl⟩
    simp only at h
    split at h
    · cases h
    next key hkey =>
    obtain rfl := Key.ofName?_eq_some_iff.1 hkey
    split at h
    · cases h
    next hseen =>
    split at h
    · cases h
    on_goal 2 => cases h
    next v hcolon =>
    rw [pure_bind] at h
    obtain ⟨⟨next, u⟩, hread, hrest⟩ := bind_eq_ok_iff.1 h
    obtain ⟨g, hg, hset⟩ := (finds_readOption _ _ _ _ _ _).1 hread
    exact .inr ⟨(key, g), t, u, next, hat, ⟨t', v, hname, hcolon, hg⟩, hseen, hset, hrest⟩
  · rintro (⟨hbrace, rfl⟩ | ⟨⟨key, g⟩, t, u, next, hat, ⟨t', v, hname, hcolon, hg⟩, hseen, hset, h⟩)
    · exact ⟨(none, r), nextKey_eq_ok_iff.2 (.inl ⟨rfl, hbrace⟩), rfl⟩
    · refine ⟨(some key.name, t'), nextKey_eq_ok_iff.2 (.inr ⟨_, rfl, t, hat, hname⟩), ?_⟩
      have hread := (finds_readOption [.key key.name] o key v next u).2 ⟨g, hg, hset⟩
      simp only [Key.ofName?_eq_some_iff.2 rfl, if_neg hseen, hcolon, pure_bind]
      exact bind_eq_ok_iff.2 ⟨_, hread, h⟩

/-- **The members of an object** are read exactly if no key is repeated and what is given has the
form of its option. -/
theorem members_eq_ok_iff {bound : Nat} {seen : List Key} {o o' : Options} {s r : Bytes} :
    members bound seen o s = .ok (o', r) ↔
      ∃ es, es.length < bound ∧ Items 0x7d MemberText seen.isEmpty es s r ∧
        (es.map Prod.fst).Nodup ∧ (∀ e ∈ es, e.1 ∉ seen) ∧ setAll? es o = some o' := by
  -- One member uses up one of the bound and joins the keys that were seen.
  induction bound generalizing seen o s with
  | zero => simp [members, faultAt]
  | succ bound ih =>
    rw [members_succ_eq_ok_iff]
    constructor
    · rintro (⟨hbrace, rfl⟩ | ⟨e, t, u, next, hat, he, hseen, hset, hrest⟩)
      · exact ⟨[], Nat.succ_pos _, .close hbrace, List.nodup_nil, List.forall_mem_nil _, rfl⟩
      · obtain ⟨es, hlength, hitems, hnodup, hes, hall⟩ := ih.1 hrest
        have hnew : ∀ x ∈ es, x.1 ≠ e.1 ∧ x.1 ∉ seen := by simpa using hes
        refine ⟨e :: es, Nat.succ_lt_succ hlength, .item hat he hitems, ?_, ?_, ?_⟩
        · refine List.nodup_cons.2 ⟨fun hmem ↦ ?_, hnodup⟩
          obtain ⟨x, hx, hkey⟩ := List.mem_map.1 hmem
          exact (hnew x hx).1 hkey
        · exact List.forall_mem_cons.2 ⟨hseen, fun x hx ↦ (hnew x hx).2⟩
        · rw [setAll?_cons, hset]
          exact hall
    · rintro ⟨es, hlength, hitems, hnodup, hes, hall⟩
      cases es with
      | nil => exact .inl ⟨items_nil_iff.1 hitems, Option.some.inj hall⟩
      | cons e es =>
        obtain ⟨t, u, hat, he, hrest⟩ := items_cons_iff.1 hitems
        obtain ⟨hseen, hes⟩ := List.forall_mem_cons.1 hes
        obtain ⟨hkey, hnodup⟩ := List.nodup_cons.1 hnodup
        rw [setAll?_cons] at hall
        obtain ⟨next, hset, hall⟩ := Option.bind_eq_some_iff.1 hall
        refine .inr ⟨e, t, u, next, hat, he, hseen, hset, ih.2 ⟨es, Nat.lt_of_succ_lt_succ hlength,
          hrest, hnodup, fun x hx hmem ↦ ?_, hall⟩⟩
        rcases List.mem_cons.1 hmem with hfound | hfound
        · exact hkey (hfound ▸ List.mem_map_of_mem hx)
        · exact hes x hx hfound

/-! ### Elements -/

theorem arrayEnd_eq_ok_iff {s r : Bytes} : arrayEnd s = .ok r ↔ skipBlank s = 0x5d :: r := by
  rw [arrayEnd]
  split
  · next h => simp [faultAt, h]
  · next t h => simp [h]
  · next t h => split <;> simp [faultAt, faultWithin, h]
  · next hempty hbracket hcomma => exact iff_of_false faultWithin_ne_ok fun h ↦ hbracket r h

/-- One step of reading elements: the bracket, or what is given for the next option. -/
theorem elements_cons_eq_ok_iff {key : Key} {keys : List Key} {index : Nat} {o o' : Options}
    {s r : Bytes} :
    elements (key :: keys) index o s = .ok (o', r) ↔
      (skipBlank s = 0x5d :: r ∧ o = o') ∨
      ∃ t, ItemAt (decide (index = 0)) s t ∧ ∃ g u next, GivenText g t u ∧
        key.set? g o = some next ∧ elements keys (index + 1) next u = .ok (o', r) := by
  rw [elements.eq_def]
  dsimp -zeta only
  extract_lets element
  have helement (t : Bytes) : element (skipBlank t) = .ok (o', r) ↔
      ∃ g u next, GivenText g (skipBlank t) u ∧ key.set? g o = some next ∧
        elements keys (index + 1) next u = .ok (o', r) := by
    simp only [element, bind_eq_ok_iff, Prod.exists, finds_readOption _ _ _ _ _ _,
      skipBlank_skipBlank]
    grind
  clear_value element
  by_cases hindex : index = 0
  · simp only [hindex, decide_true, itemAt_true_iff, exists_eq_left, if_true] at helement ⊢
    split
    · next h => simp [faultAt, h, GivenText.not_nil]
    · next t h => simp [h, GivenText.not_bracket, and_comm]
    · next t h => rw [← helement, h, or_iff_right (by simp)]
    · next hempty hbracket hcomma =>
      rw [← helement, or_iff_right fun h ↦ hbracket r h.1]
  · simp only [hindex, decide_false, itemAt_false_iff, if_false]
    split
    · next h => simp [faultAt, h]
    · next t h => simp [h, and_comm]
    · next t h =>
      simp only [h, List.cons.injEq, true_and, exists_eq_left', exists_eq_left]
      rw [or_iff_right (by simp)]
      split
      · next ht => simp [faultAt, ht, GivenText.not_nil]
      · next u ht => simp [faultAt, ht, GivenText.not_bracket]
      · exact helement t
    · next hempty hbracket hcomma =>
      refine iff_of_false faultWithin_ne_ok ?_
      rintro (⟨h, -⟩ | ⟨t, ⟨u, h, -⟩, -⟩)
      · exact hbracket r h
      · exact hcomma u h

/-- **The elements of an array** are read exactly if there are not more of them than options and
each has the form of its option. -/
theorem elements_eq_ok_iff {keys : List Key} {index : Nat} {o o' : Options} {s r : Bytes} :
    elements keys index o s = .ok (o', r) ↔
      ∃ gs, gs.length ≤ keys.length ∧ Items 0x5d GivenText (decide (index = 0)) gs s r ∧
        setAll? (keys.zip gs) o = some o' := by
  induction keys generalizing index o s with
  | nil =>
    simp only [elements, bind_eq_ok_iff, arrayEnd_eq_ok_iff, pure_pair_eq_ok_iff]
    constructor
    · rintro ⟨rest, hbracket, rfl, rfl⟩
      exact ⟨[], Nat.le_refl _, .close hbracket, rfl⟩
    · rintro ⟨gs, hlength, hitems, hall⟩
      obtain rfl := List.length_eq_zero_iff.1 (Nat.le_zero.1 hlength)
      exact ⟨r, items_nil_iff.1 hitems, Option.some.inj hall, rfl⟩
  | cons key keys ih =>
    rw [elements_cons_eq_ok_iff]
    constructor
    · rintro (⟨hbracket, rfl⟩ | ⟨t, hat, g, u, next, hg, hset, hrest⟩)
      · exact ⟨[], Nat.zero_le _, .close hbracket, rfl⟩
      · obtain ⟨gs, hlength, hitems, hall⟩ := ih.1 hrest
        refine ⟨g :: gs, Nat.succ_le_succ hlength, .item hat hg hitems, ?_⟩
        rw [List.zip_cons_cons, setAll?_cons, hset]
        exact hall
    · rintro ⟨gs, hlength, hitems, hall⟩
      cases gs with
      | nil => exact .inl ⟨items_nil_iff.1 hitems, Option.some.inj hall⟩
      | cons g gs =>
        obtain ⟨t, u, hat, hg, hrest⟩ := items_cons_iff.1 hitems
        rw [List.zip_cons_cons, setAll?_cons] at hall
        obtain ⟨next, hset, hall⟩ := Option.bind_eq_some_iff.1 hall
        exact .inr ⟨t, hat, g, u, next, hg, hset,
          ih.2 ⟨gs, Nat.le_of_succ_le_succ hlength, hrest, hall⟩⟩

/-! ### A whole configuration -/

theorem Key.length_le {keys : List Key} (h : keys.Nodup) : keys.length ≤ Key.all.length :=
  (List.subperm_of_subset h fun k _ ↦ by cases k <;> decide).length_le

/-- **What is read as a configuration**: an object in which no key is repeated, or an array that is
not too long, with something given for each option that has its form. -/
theorem configuration_eq_ok_iff {o : Options} {s r : Bytes} :
    configuration s = .ok (o, r) ↔
      (∃ es, ObjectText es s r ∧ (es.map Prod.fst).Nodup ∧ setAll? es {} = some o) ∨
      ∃ gs, ArrayText gs s r ∧ gs.length ≤ Key.all.length ∧
        setAll? (Key.all.zip gs) {} = some o := by
  rw [configuration]
  split
  · next h => simp [faultAt, ObjectText, ArrayText, h]
  · next t h =>
    rw [elements_eq_ok_iff]
    constructor
    · rintro ⟨gs, hlength, hitems, hall⟩
      exact .inr ⟨gs, ⟨t, h, hitems⟩, hlength, hall⟩
    · rintro (⟨es, ⟨t', hbrace, -⟩, -⟩ | ⟨gs, ⟨t', hbracket, hitems⟩, hlength, hall⟩)
      · exact absurd (List.cons.inj (h.symm.trans hbrace)).1 (by decide)
      · obtain rfl := (List.cons.inj (h.symm.trans hbracket)).2
        exact ⟨gs, hlength, hitems, hall⟩
  · next t h =>
    rw [members_eq_ok_iff]
    constructor
    · rintro ⟨es, -, hitems, hnodup, -, hall⟩
      exact .inl ⟨es, ⟨t, h, hitems⟩, hnodup, hall⟩
    · rintro (⟨es, ⟨t', hbrace, hitems⟩, hnodup, hall⟩ | ⟨gs, ⟨t', hbracket, -⟩, -⟩)
      · obtain rfl := (List.cons.inj (h.symm.trans hbrace)).2
        have hlength : es.length ≤ Key.all.length := by
          simpa only [List.length_map] using Key.length_le hnodup
        exact ⟨es, Nat.lt_succ_of_le hlength, hitems, hnodup, fun _ _ ↦ List.not_mem_nil, hall⟩
      · exact absurd (List.cons.inj (h.symm.trans hbracket)).1 (by decide)
  · next hempty hbracket hbrace =>
    refine iff_of_false (wrongType_ne_ok _ _ _ _) ?_
    rintro (⟨es, ⟨t, h, -⟩, -⟩ | ⟨gs, ⟨t, h, -⟩, -⟩)
    · exact hbrace t h
    · exact hbracket t h

theorem read_eq_ok_iff {b : Bytes} {o : Options} :
    read b = .ok o ↔ ∃ r, configuration b = .ok (o, r) := by
  rw [read]
  cases configuration b with
  | error f => simp
  | ok result => simp [Prod.ext_iff]

theorem exists_read_eq_ok_iff {b : Bytes} :
    (∃ o, read b = .ok o) ↔ (∃ es r, ObjectText es b r ∧ Fits es) ∨ Listed b := by
  simp only [read_eq_ok_iff, configuration_eq_ok_iff, Fits, Listed, ← isSome_setAll? _ {},
    Option.isSome_iff_exists]
  grind

/-- **Which texts are accepted.** All that is said to be a configuration is, and the three other
forms; so exactly the texts of these forms are accepted without being what a configuration is said
to be. -/
theorem accepts_documented_iff (b : Bytes) :
    ((∃ o, read b = .ok o) ↔ Documented b ∨ Overrun b ∨ Tagged b ∨ Listed b) ∧
    (((∃ o, read b = .ok o) ↔ Documented b) ↔ ¬Overrun b ∧ ¬Tagged b ∧ ¬Listed b) := by
  have haccepted : (∃ o, read b = .ok o) ↔ Documented b ∨ Overrun b ∨ Tagged b ∨ Listed b := by
    rw [exists_read_eq_ok_iff, exists_fits_iff, or_assoc, or_assoc]
  refine ⟨haccepted, ?_, ?_⟩
  · intro hsame
    have honly : ∀ {p : Prop}, (Documented b → ¬p) → (p → ∃ o, read b = .ok o) → ¬p :=
      fun hnot haccept hp ↦ hnot (hsame.1 (haccept hp)) hp
    exact ⟨honly Documented.not_overrun fun h ↦ haccepted.2 (.inr (.inl h)),
      honly Documented.not_tagged fun h ↦ haccepted.2 (.inr (.inr (.inl h))),
      honly Documented.not_listed fun h ↦ haccepted.2 (.inr (.inr (.inr h)))⟩
  · rintro ⟨hoverrun, htagged, hlisted⟩
    rw [haccepted, or_iff_left]
    rintro (h | h | h)
    · exact hoverrun h
    · exact htagged h
    · exact hlisted h

/-- An empty object is accepted with something after it. -/
theorem accepts_overrun :
    read (Utf8.encode "\x7b\x7d x") = .ok {} ∧ ¬Documented (Utf8.encode "\x7b\x7d x") := by
  have hobject : ObjectText [] (Utf8.encode "\x7b\x7d x") [0x20, 0x78] :=
    ⟨[0x7d, 0x20, 0x78], by decide, .close rfl⟩
  have hoverrun : Overrun (Utf8.encode "\x7b\x7d x") :=
    ⟨[], _, hobject, by decide, List.nodup_nil, List.forall_mem_nil _⟩
  refine ⟨read_eq_ok_iff.2 ⟨[0x20, 0x78], ?_⟩, fun h ↦ h.not_overrun hoverrun⟩
  exact configuration_eq_ok_iff.2 (.inl ⟨[], hobject, List.nodup_nil, rfl⟩)

end Options

end JsonEmbed
