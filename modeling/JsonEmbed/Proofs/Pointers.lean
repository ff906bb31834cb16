import JsonEmbed.Proofs.Rereading
import JsonEmbed.Proofs.Spelling

/-!
# Pointers to the parts of a document

A part of a value is reached by steps, each a key of an object or an index of an array
(`Json.Reaches`). The pointer of such steps has a slash before each of them, and slashes and tildes
in keys are escaped. Nothing is lost in it: no slash is left inside a token, so splitting at slashes
finds the tokens again, and reading a token undoes its escapes (`Pointer.tokens?_ofSteps`). An index
is a token like any other. What makes it an index again is that it stands before an array.

So selecting by a pointer is following its tokens, which goes on from one list of tokens to another
(`Json.follow?_append`), and the parts of a document are all reached (`Document.load_ofSteps`).
-/

namespace JsonEmbed

/-- A step from a value to a part of it. -/
inductive Step where
  | key (name : String)
  | index (i : Nat)
  deriving DecidableEq

/-- The token of a step: a key itself, or an index in plain decimal. -/
def Step.token : Step → String
  | key name => name
  | index i => Nat.repr i

namespace Pointer

/-- The pointer of a list of steps. -/
def ofSteps (path : List Step) : String :=
  String.ofList (path.flatMap fun s ↦ '/' :: encode s.token.toList)

/-! ### Tokens -/

section Unescape

variable {escaped plain : Char}

theorem unescape_cons_of_ne {c : Char} (h : c ≠ '~') (cs : List Char) :
    unescape escaped plain (c :: cs) = c :: unescape escaped plain cs := by
  cases cs with
  | nil => rfl
  | cons d cs => rw [unescape, if_neg fun hc ↦ h hc.1]

theorem unescape_escape (cs : List Char) :
    unescape escaped plain ('~' :: escaped :: cs) = plain :: unescape escaped plain cs := by
  rw [unescape, if_pos ⟨rfl, rfl⟩]

theorem unescape_other {d : Char} (h : d ≠ escaped) (cs : List Char) :
    unescape escaped plain ('~' :: d :: cs) = '~' :: unescape escaped plain (d :: cs) := by
  rw [unescape, if_neg fun hd ↦ h hd.2]

end Unescape

/-- A token in which only the tildes are escaped. -/
def encodeTildes (token : List Char) : List Char :=
  token.flatMap fun c ↦ if c = '~' then ['~', '0'] else [c]

theorem encode_cons_of_ne {c : Char} (htilde : c ≠ '~') (hslash : c ≠ '/') (cs : List Char) :
    encode (c :: cs) = c :: encode cs := by
  rw [encode, List.flatMap_cons, if_neg htilde, if_neg hslash]
  rfl

theorem encodeTildes_cons_of_ne {c : Char} (h : c ≠ '~') (cs : List Char) :
    encodeTildes (c :: cs) = c :: encodeTildes cs := by
  rw [encodeTildes, List.flatMap_cons, if_neg h]
  rfl

/-- Slashes are put back first: an escaped tilde does not look like one of them. -/
theorem unescape_slashes_encode (token : List Char) :
    unescape '1' '/' (encode token) = encodeTildes token := by
  induction token with
  | nil => rfl
  | cons c cs ih =>
    by_cases htilde : c = '~'
    · subst htilde
      show unescape '1' '/' ('~' :: '0' :: encode cs) = '~' :: '0' :: encodeTildes cs
      rw [unescape_other (by decide), unescape_cons_of_ne (by decide), ih]
    rw [encodeTildes_cons_of_ne htilde]
    by_cases hslash : c = '/'
    · subst hslash
      show unescape '1' '/' ('~' :: '1' :: encode cs) = '/' :: encodeTildes cs
      rw [unescape_escape, ih]
    · rw [encode_cons_of_ne htilde hslash, unescape_cons_of_ne htilde, ih]

theorem unescape_tildes_encodeTildes (token : List Char) :
    unescape '0' '~' (encodeTildes token) = token := by
  induction token with
  | nil => rfl
  | cons c cs ih =>
    by_cases htilde : c = '~'
    · subst htilde
      show unescape '0' '~' ('~' :: '0' :: encodeTildes cs) = '~' :: cs
      rw [unescape_escape, ih]
    · rw [encodeTildes_cons_of_ne htilde, unescape_cons_of_ne htilde, ih]

/-- **A token is read back** from how it is written. -/
theorem decode_encode (token : List Char) : decode (encode token) = token := by
  rw [decode, unescape_slashes_encode, unescape_tildes_encodeTildes]

theorem slash_not_mem_encode (token : List Char) : '/' ∉ encode token := by
  intro hslash
  obtain ⟨c, -, hc⟩ := List.mem_flatMap.1 hslash
  split at hc
  · exact absurd hc (by decide)
  split at hc
  · exact absurd hc (by decide)
  · next hne => exact hne (List.mem_singleton.1 hc).symm

/-- The tokens of a pointer are between its slashes. -/
theorem splitOn_ofSteps (token : List Char) (path : List Step) :
    splitOn '/' (encode token ++ (ofSteps path).toList) =
      encode token :: path.map fun s ↦ encode s.token.toList := by
  rw [ofSteps, String.toList_ofList]
  induction path generalizing token with
  | nil =>
    rw [List.flatMap_nil, List.append_nil, splitOn_of_not_mem (slash_not_mem_encode token)]
    rfl
  | cons s path ih =>
    rw [List.flatMap_cons, List.cons_append, splitOn_append_cons,
      splitOn_of_not_mem (slash_not_mem_encode token), ih]
    rfl

/-- **The tokens of a pointer are those of its steps.** -/
theorem tokens?_ofSteps (path : List Step) :
    tokens? (ofSteps path) = some (path.map Step.token) := by
  rcases path with - | ⟨s, path⟩
  · rfl
  have hcons : (ofSteps (s :: path)).toList =
      '/' :: (encode s.token.toList ++ (ofSteps path).toList) := by
    rw [ofSteps, ofSteps, String.toList_ofList, String.toList_ofList, List.flatMap_cons]
    rfl
  rw [tokens?, hcons]
  simp only [if_true, splitOn_ofSteps, List.map_cons, List.map_map, Function.comp_def,
    decode_encode, String.ofList_toList]

theorem ofSteps_append (p q : List Step) : ofSteps (p ++ q) = ofSteps p ++ ofSteps q := by
  rw [ofSteps, List.flatMap_append, String.ofList_append]
  rfl

/-- An index is read back from its token. -/
theorem index?_repr (i : Nat) : index? (Nat.repr i) = some i := by
  have hdigits : (Nat.toDigits 10 i).all Char.isDigit = true :=
    List.all_eq_true.2 fun c hc ↦ Nat.isDigit_of_mem_toDigits (by decide) (by decide) hc
  have hleading : Nat.toDigits 10 i = ['0'] ∨ (Nat.toDigits 10 i).head? ≠ some '0' := by
    obtain hzero | ⟨c, rest, hcs, hc⟩ := isLeading_toDigits i
    · exact .inl hzero
    · exact .inr (by simpa [hcs] using hc)
  rw [index?, Nat.toList_repr]
  exact (if_pos ⟨(isLeading_toDigits i).ne_nil, hdigits, hleading⟩).trans
    (congrArg some Nat.ofDigitChars_ten_toDigits)

end Pointer

/-! ### Parts of a value -/

namespace Json

/-- `v.Holds s w`: the step `s` leads from `v` to `w`. -/
inductive Holds : Json → Step → Json → Prop
  | member {ms : List (String × Json)} {key : String} {w : Json} : (key, w) ∈ ms →
    Holds (object ms) (.key key) w
  | element {xs : List Json} {i : Nat} {w : Json} : xs[i]? = some w →
    Holds (array xs) (.index i) w

/-- `v.Reaches path w`: the steps lead from `v` to its part `w`. -/
inductive Reaches : Json → List Step → Json → Prop
  | here (v : Json) : Reaches v [] v
  | step {v u w : Json} {s : Step} {path : List Step} : Holds v s u → Reaches u path w →
    Reaches v (s :: path) w

/-- A step leads where its token does, if no object has a key twice. -/
theorem child?_of_holds {d : Nat} {v w : Json} {s : Step} (hv : v.WithinLimits d)
    (h : v.Holds s w) : v.child? s.token = some w := by
  cases h with
  | member hmem =>
    cases hv with
    | object hkeys _ => exact (lookup_eq_some_iff_mem hkeys).2 hmem
  | element hi =>
    rw [Step.token, child?, Pointer.index?_repr]
    exact hi

theorem follow?_of_reaches {d : Nat} {v w : Json} {path : List Step} (hv : v.WithinLimits d)
    (h : v.Reaches path w) : v.follow? (path.map Step.token) = some w := by
  induction h with
  | here v => rfl
  | step hstep _ ih =>
    have hchild := child?_of_holds hv hstep
    rw [List.map_cons, follow?, hchild]
    exact ih (hv.child? hchild)

/-- Tokens are followed one list after the other. -/
theorem follow?_append (p q : List String) (v : Json) :
    v.follow? (p ++ q) = (v.follow? p).bind fun u ↦ u.follow? q := by
  induction p generalizing v with
  | nil => rfl
  | cons token p ih =>
    rw [List.cons_append, follow?, follow?]
    cases v.child? token with
    | none => rfl
    | some u => exact ih u

theorem select?_ofSteps (path : List Step) (v : Json) :
    v.select? (Pointer.ofSteps path) = v.follow? (path.map Step.token) := by
  rw [select?, Pointer.tokens?_ofSteps]
  rfl

theorem select?_append (p q : List Step) (v : Json) :
    v.select? (Pointer.ofSteps p ++ Pointer.ofSteps q) =
      (v.select? (Pointer.ofSteps p)).bind fun u ↦ u.select? (Pointer.ofSteps q) := by
  simp only [← Pointer.ofSteps_append, select?_ofSteps, List.map_append, follow?_append]

end Json

/-! ### Documents -/

/-- The options with a pointer, and without a filter. -/
def Options.selecting (o : Options) (pointer : String) : Options :=
  { o with pointer := some pointer, filter := none }

namespace Document

theorem point_selecting (o : Options) (pointer : String) (v : Json) :
    point (o.selecting pointer) v =
      match v.select? pointer with
      | some part => .ok part
      | none => .error (.pointerMissing pointer) :=
  rfl

section

variable [Query.Interpreter]

/-- Without a filter, what is loaded is the part that is selected. -/
theorem load_selecting {bytes : Bytes} {v : Json} (h : parse bytes = .ok v) (o : Options)
    (pointer : String) : load (o.selecting pointer) bytes = point (o.selecting pointer) v := by
  rw [load, h]
  cases hpoint : point (o.selecting pointer) v with
  | error e => simp only [bind, Except.bind, hpoint]
  | ok part => simp only [bind, Except.bind, hpoint]; rfl

/-- **Pointers reach every part of a document**, and a pointer that goes on after another one
selects inside what the other selects. The steps `p` and `q` need not lead anywhere. -/
theorem load_ofSteps {bytes : Bytes} {v : Json} (h : parse bytes = .ok v) (o : Options) :
    (∀ path w, v.Reaches path w →
      load (o.selecting (Pointer.ofSteps path)) bytes = .ok w) ∧
    ∀ p q : List Step,
      let first := Pointer.ofSteps p
      let second := Pointer.ofSteps q
      (∃ u w, load (o.selecting first) bytes = .ok u ∧ point (o.selecting second) u = .ok w ∧
        load (o.selecting (first ++ second)) bytes = .ok w) ∨
      (load (o.selecting (first ++ second)) bytes = .error (.pointerMissing (first ++ second)) ∧
        (load (o.selecting first) bytes = .error (.pointerMissing first) ∨
          ∃ u, load (o.selecting first) bytes = .ok u ∧
            point (o.selecting second) u = .error (.pointerMissing second))) := by
  simp only [load_selecting h, point_selecting]
  constructor
  · intro path w hreach
    have hlimits := Json.withinLimits_of_read (eq_ok_of_mapError h)
    rw [Json.select?_ofSteps, Json.follow?_of_reaches hlimits hreach]
  · intro p q
    rw [Json.select?_append]
    cases v.select? (Pointer.ofSteps p) with
    | none => exact .inr ⟨rfl, .inl rfl⟩
    | some u =>
      cases hw : u.select? (Pointer.ofSteps q) with
      | none => exact .inr ⟨by simp [hw], .inr ⟨u, rfl, by simp [hw]⟩⟩
      | some w => exact .inl ⟨u, w, rfl, by simp [hw], by simp [hw]⟩

end

/-- Slashes and tildes in keys, an index and an empty key on one way. -/
theorem load_ofSteps_escaped :
    let bytes := Utf8.encode "\x7b\"a/b\":\x7b\"~1\":[null,\x7b\"\":true\x7d]\x7d\x7d"
    let v : Json :=
      .object [("a/b", .object [("~1", .array [.null, .object [("", .boolean true)]])])]
    let path : List Step := [.key "a/b", .key "~1", .index 1, .key ""]
    parse bytes = .ok v ∧ v.Reaches path (.boolean true) ∧
      Pointer.ofSteps path = "/a~1b/~01/1/" ∧
      load (({} : Options).selecting "/a~1b/~01/1/") bytes = .ok (.boolean true) := by
  intro bytes v path
  have hlimits : v.WithinLimits Json.maxDepth :=
    .object (by decide) <| List.forall_mem_singleton.2 <|
      .object (by decide) <| List.forall_mem_singleton.2 <|
        .array <| List.forall_mem_cons.2 ⟨.null, List.forall_mem_singleton.2 <|
          .object (by decide) <| List.forall_mem_singleton.2 <| .boolean true⟩
  have hparse : parse bytes = .ok v := by
    -- the bytes are the text of the value, which is read as the value itself
    have htext : bytes = Utf8.encode (Query.Value.ofJson v).text := by decide +kernel
    have hmark : withoutMark bytes = bytes := by decide +kernel
    rw [parse, hmark, htext, Json.read_text_ofJson hlimits]
    rfl
  have hreach : v.Reaches path (.boolean true) :=
    .step (.member List.mem_cons_self) <| .step (.member List.mem_cons_self) <|
      .step (.element rfl) <| .step (.member List.mem_cons_self) <| .here _
  have hpointer : Pointer.ofSteps path = "/a~1b/~01/1/" := by decide
  have hload := (load_ofSteps hparse {}).1 path _ hreach
  rw [hpointer] at hload
  exact ⟨hparse, hreach, hpointer, hload⟩

end Document

end JsonEmbed
