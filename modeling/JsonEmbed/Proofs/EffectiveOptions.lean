import JsonEmbed.CommandLine.Inputs
import JsonEmbed.Proofs.ConfigurationWriting

/-!
# Where the options of a command come from

Each option of a command is what its flag says, else what the configuration gives for its key, else
its default (`Settings.Layered`). This is said once for all five options: `Options.get` reads an
option by its key, and what a flag or a configuration says is a value of the type that this option
has. Setting one option leaves the others alone (`Options.get_set`), so what the members of a
configuration set does not depend on their order, and an option is told by its own flag and its own
key (`Settings.Layered.get_eq`).
-/

namespace JsonEmbed

namespace Options

/-! ### Options by their keys -/

/-- What an option holds. -/
abbrev Key.Value : Key → Type
  | rootName => String
  | nestedLayout => NestedLayout
  | arrayInitializer => ArrayInitializer
  | pointer => Option String
  | filter => Option String

/-- The option of a key. -/
def get (o : Options) : (k : Key) → k.Value
  | .rootName => o.rootName
  | .nestedLayout => o.nestedLayout
  | .arrayInitializer => o.arrayInitializer
  | .pointer => o.pointer
  | .filter => o.filter

/-- Options with the one of a key set to a value. -/
def set (o : Options) : (k : Key) → k.Value → Options
  | .rootName, s => { o with rootName := s }
  | .nestedLayout, l => { o with nestedLayout := l }
  | .arrayInitializer, i => { o with arrayInitializer := i }
  | .pointer, p => { o with pointer := p }
  | .filter, f => { o with filter := f }

theorem get_set (o : Options) (j k : Key) (v : k.Value) :
    (o.set k v).get j = if h : k = j then h ▸ v else o.get j := by
  cases k <;> cases j <;> rfl

theorem get_set_self (o : Options) (k : Key) (v : k.Value) : (o.set k v).get k = v := by
  rw [get_set, dif_pos rfl]

theorem get_set_of_ne (o : Options) {j k : Key} (h : k ≠ j) (v : k.Value) :
    (o.set k v).get j = o.get j := by
  rw [get_set, dif_neg h]

theorem eq_of_get_eq {o o' : Options} (h : ∀ k, o.get k = o'.get k) : o = o' := by
  obtain ⟨rootName, layout, initializer, pointer, filter⟩ := o
  rw [Options.mk.injEq]
  exact ⟨h .rootName, h .nestedLayout, h .arrayInitializer, h .pointer, h .filter⟩

/-! ### What a configuration sets -/

/-- The value that is given for an option, if it has the form of the option. -/
def Key.value? : (k : Key) → Given → Option k.Value
  | rootName, g => g.text?
  | nestedLayout, g => g.name?.bind NestedLayout.ofName?
  | arrayInitializer, g => g.name?.bind ArrayInitializer.ofName?
  | pointer, g => g.textOrNull?
  | filter, g => g.textOrNull?

theorem Key.set?_eq (k : Key) (g : Given) (o : Options) :
    k.set? g o = (k.value? g).map (o.set k) := by
  cases k <;> rfl

/-- **Members set their own options**, whatever their order is, and no others. -/
theorem get_of_setAll? {es : List (Key × Given)} {o o' : Options}
    (hkeys : (es.map Prod.fst).Nodup) (h : setAll? es o = some o') :
    (∀ k g, (k, g) ∈ es → k.value? g = some (o'.get k)) ∧
      ∀ k, k ∉ es.map Prod.fst → o'.get k = o.get k := by
  induction es generalizing o with
  | nil =>
    obtain rfl : o = o' := Option.some.inj h
    exact ⟨fun k g hmem ↦ absurd hmem List.not_mem_nil, fun k _ ↦ rfl⟩
  | cons e es ih =>
    obtain ⟨key, given⟩ := e
    obtain ⟨hkey, hrest⟩ := List.nodup_cons.1 hkeys
    rw [setAll?_cons, Key.set?_eq] at h
    obtain ⟨next, hnext, h⟩ := Option.bind_eq_some_iff.1 h
    obtain ⟨v, hv, rfl⟩ := Option.map_eq_some_iff.1 hnext
    obtain ⟨hset, hother⟩ := ih hrest h
    constructor
    · intro k g hmem
      rcases List.mem_cons.1 hmem with hfirst | hmem
      · obtain ⟨rfl, rfl⟩ := Prod.mk.inj hfirst
        rw [hv, hother k hkey, get_set_self]
      · exact hset k g hmem
    · intro k hk
      obtain ⟨hne, hk⟩ := not_or.1 (mt List.mem_cons.2 hk)
      rw [hother k hk, get_set_of_ne o (Ne.symm hne)]

end Options

namespace Settings

open Options (Key Given)

variable {fs fs' : FileSystem} {s s' : Settings} {es es' : List (Key × Given)} {o o' : Options}

/-! ### What flags and configurations say -/

/-- What the flag of an option says, if it is given. A switch says one thing only. -/
def flag? (s : Settings) : (k : Key) → Option k.Value
  | .rootName => s.rootName
  | .nestedLayout => if s.nestedStructs then some .struct else none
  | .arrayInitializer => if s.arrayIndices then some .indices else none
  | .pointer => s.pointer.map some
  | .filter => s.filter.map some

theorem get_override (s : Settings) (o : Options) (k : Key) :
    (s.override o).get k = (s.flag? k).getD (o.get k) := by
  obtain ⟨pointer, filter, -, -, -, structs, indices, -⟩ := s
  cases k with
  | rootName => rfl
  | nestedLayout => cases structs <;> rfl
  | arrayInitializer => cases indices <;> rfl
  | pointer => cases pointer <;> rfl
  | filter => cases filter <;> rfl

/-- The configuration, if there is one, is the text of an object in which no key is repeated and
each option is given something of its form. -/
inductive Configured (fs : FileSystem) (s : Settings) : List (Key × Given) → Prop
  | absent (h : s.config = none) : Configured fs s []
  | present {path : String} {b r : Bytes} {es : List (Key × Given)} (h : s.config = some path)
    (hread : fs.read path = .ok b) (hobject : Options.ObjectText es b r)
    (hfits : Options.Fits es) : Configured fs s es

/-- Each option is what its flag says, else what the configuration gives for it, else its
default. -/
structure Layered (s : Settings) (es : List (Key × Given)) (o : Options) : Prop where
  flag : ∀ k v, s.flag? k = some v → o.get k = v
  configured : ∀ k g, s.flag? k = none → (k, g) ∈ es → k.value? g = some (o.get k)
  default : ∀ k, s.flag? k = none → k ∉ es.map Prod.fst → o.get k = ({} : Options).get k

theorem layered_override (hkeys : (es.map Prod.fst).Nodup)
    (h : Options.setAll? es {} = some o) : Layered s es (s.override o) := by
  obtain ⟨hset, hother⟩ := Options.get_of_setAll? hkeys h
  refine ⟨fun k v hflag ↦ ?_, fun k g hflag hmem ↦ ?_, fun k hflag hk ↦ ?_⟩ <;>
    rw [get_override, hflag]
  · rfl
  · exact hset k g hmem
  · exact hother k hk

/-- Settings whose configuration can be read come to options. -/
theorem exists_options_of_configured (h : s.Configured fs es) :
    ∃ o, s.options fs = .ok o ∧ Layered s es o := by
  cases h with
  | absent hconfig =>
    refine ⟨s.override {}, ?_, layered_override List.nodup_nil rfl⟩
    rw [options, hconfig]
    rfl
  | present hconfig hread hobject hfits =>
    obtain ⟨o, ho⟩ := Option.isSome_iff_exists.1 ((Options.isSome_setAll? es {}).2 hfits.2)
    have hoptions : Options.read _ = .ok o := Options.read_eq_ok_iff.2
      ⟨_, Options.configuration_eq_ok_iff.2 (.inl ⟨es, hobject, hfits.1, ho⟩)⟩
    refine ⟨s.override o, ?_, layered_override hfits.1 ho⟩
    rw [options, hconfig, baseOptions, hread]
    show s.override <$> (Options.read _).mapError _ = _
    rw [hoptions]
    rfl

/-- An option is told by its own flag and by what is given for its own key. -/
theorem Layered.get_eq (h : Layered s es o) (h' : Layered s' es' o') {k : Key}
    (hflag : s'.flag? k = s.flag? k) (hgiven : ∀ g, (k, g) ∈ es' ↔ (k, g) ∈ es) :
    o'.get k = o.get k := by
  cases hsays : s.flag? k with
  | some v => rw [h.flag k v hsays, h'.flag k v (hflag.trans hsays)]
  | none =>
    have hsays' := hflag.trans hsays
    by_cases hkey : k ∈ es.map Prod.fst
    · obtain ⟨⟨k, g⟩, hmem, rfl⟩ := List.mem_map.1 hkey
      have hvalue := h.configured k g hsays hmem
      rw [h'.configured k g hsays' ((hgiven g).2 hmem)] at hvalue
      exact Option.some.inj hvalue
    · have hkey' : k ∉ es'.map Prod.fst := by
        intro hmem
        obtain ⟨⟨j, g⟩, hg, rfl⟩ := List.mem_map.1 hmem
        exact hkey (List.mem_map_of_mem ((hgiven g).1 hg))
      rw [h.default k hsays hkey, h'.default k hsays' hkey']

/-- **Options are flag, else configuration, else default**, each by itself. So an option is the same
in two runs that agree on its flag and on what is given for its key, whatever else is different; and
a configuration with the same members in another order comes to the same options. -/
theorem options_layered (h : s.Configured fs es) :
    ∃ o, s.options fs = .ok o ∧ Layered s es o ∧
      ∀ {fs' : FileSystem} {s' : Settings} {es' : List (Key × Given)}, s'.Configured fs' es' →
        ∃ o', s'.options fs' = .ok o' ∧
          (∀ k, s'.flag? k = s.flag? k → (∀ g, (k, g) ∈ es' ↔ (k, g) ∈ es) →
            o'.get k = o.get k) ∧
          ((∀ k, s'.flag? k = s.flag? k) → es'.Perm es → o' = o) := by
  obtain ⟨o, ho, hlayered⟩ := exists_options_of_configured h
  refine ⟨o, ho, hlayered, fun h' ↦ ?_⟩
  obtain ⟨o', ho', hlayered'⟩ := exists_options_of_configured h'
  refine ⟨o', ho', fun k hflag hgiven ↦ hlayered.get_eq hlayered' hflag hgiven, ?_⟩
  intro hflags hperm
  exact Options.eq_of_get_eq fun k ↦
    hlayered.get_eq hlayered' (hflags k) fun g ↦ hperm.mem_iff

/-- The pointer and the indices come from flags, the name and the layout from a configuration that
has them in another order, and the filter is said to be none. -/
theorem options_layered_mixed :
    let es : List (Key × Given) :=
      [(.filter, .null), (.nestedLayout, .text "struct"), (.rootName, .text "a\"b\n")]
    let fs : FileSystem :=
      ⟨[], [(["cfg.json"], .file (Utf8.encode (Options.object es).compact))]⟩
    let s : Settings :=
      { inputs := ["x.json"], config := some "cfg.json", arrayIndices := true
        pointer := some "/x" }
    s.Configured fs es ∧
      s.options fs = .ok ⟨"a\"b\n", .struct, .indices, some "/x", none⟩ := by
  intro es fs s
  have hobject : Options.ObjectText es (Utf8.encode (Options.object es).compact) [] := by
    simpa only [List.append_nil] using Options.objectText_compact es []
  have htakes : ∀ e ∈ es, e.1.Takes e.2 :=
    List.forall_mem_cons.2 ⟨rfl, List.forall_mem_cons.2 ⟨rfl, List.forall_mem_singleton.2 rfl⟩⟩
  have hconfigured : s.Configured fs es := .present rfl rfl hobject ⟨by decide, htakes⟩
  obtain ⟨o, ho, hlayered, -⟩ := options_layered hconfigured
  have hname : some "a\"b\n" = some (o.get .rootName) :=
    hlayered.configured .rootName (.text "a\"b\n") rfl (by decide)
  have hlayout : some NestedLayout.struct = some (o.get .nestedLayout) :=
    hlayered.configured .nestedLayout (.text "struct") rfl (by decide)
  have hfilter : some none = some (o.get .filter) :=
    hlayered.configured .filter .null rfl (by decide)
  refine ⟨hconfigured, ho.trans (congrArg Except.ok (Options.eq_of_get_eq fun k ↦ ?_))⟩
  cases k with
  | rootName => exact (Option.some.inj hname).symm
  | nestedLayout => exact (Option.some.inj hlayout).symm
  | arrayInitializer => exact hlayered.flag .arrayInitializer .indices rfl
  | pointer => exact hlayered.flag .pointer (some "/x") rfl
  | filter => exact (Option.some.inj hfilter).symm

end Settings

end JsonEmbed
