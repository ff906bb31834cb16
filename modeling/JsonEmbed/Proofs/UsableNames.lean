import JsonEmbed.Program
import JsonEmbed.Proofs.Identifiers

/-!
# Usable names

A name is usable in C if it is an identifier and no reserved word. `C.identifier` changes a text in
three steps, and each keeps what the steps before it have reached: after the first, all characters
can stand in an identifier; after the second, the text is an identifier; and the third adds an
underscore to a reserved word, which makes it an identifier that is not reserved. A usable name is
changed by none of them. So `C.identifier` is a retraction onto the usable names
(`C.identifier_retraction`).

Read backwards, the steps say which texts are given a name (`C.identifier_eq_iff`). This finds the
texts whose names the surroundings of the generated program take already: the macros of the headers
that it includes, and the parameters of its main function (`C.taken_iff`).
-/

namespace JsonEmbed

namespace C

/-! ### Identifiers and usable names -/

/-- The letters and the underscore of ASCII. -/
def isIdentifierStart (c : Char) : Bool :=
  c.isAlpha || c == '_'

/-- The characters of an identifier: a letter or an underscore, and then letters, digits and
underscores. -/
def IsIdentifier : List Char → Prop
  | [] => False
  | c :: cs => isIdentifierStart c = true ∧ ∀ d ∈ cs, isIdentifierChar d = true

instance : (cs : List Char) → Decidable (IsIdentifier cs)
  | [] => isFalse id
  | c :: cs =>
    decidable_of_iff ((isIdentifierStart c && cs.all isIdentifierChar) = true) <| by
      rw [Bool.and_eq_true, List.all_eq_true]
      exact Iff.rfl

/-- A name that can be declared. -/
structure IsUsable (s : String) : Prop where
  isIdentifier : IsIdentifier s.toList
  not_mem_reserved : s ∉ reserved

theorem isDigit_of_isAlpha {c : Char} (h : c.isAlpha = true) : c.isDigit = false := by
  have hrange : 65 ≤ c.toNat ∧ c.toNat ≤ 90 ∨ 97 ≤ c.toNat ∧ c.toNat ≤ 122 := by
    rcases Bool.or_eq_true_iff.1 h with hupper | hlower
    · obtain ⟨hlow, hhigh⟩ := of_decide_eq_true hupper
      exact Or.inl ⟨UInt32.le_iff_toNat_le.1 hlow, UInt32.le_iff_toNat_le.1 hhigh⟩
    · obtain ⟨hlow, hhigh⟩ := Bool.and_eq_true_iff.1 hlower
      exact Or.inr ⟨UInt32.le_iff_toNat_le.1 (of_decide_eq_true hlow),
        UInt32.le_iff_toNat_le.1 (of_decide_eq_true hhigh)⟩
  rw [← Bool.not_eq_true, Char.isDigit_iff_toNat]
  change ¬(48 ≤ c.toNat ∧ c.toNat ≤ 57)
  omega

/-- What may stand first is what may stand anywhere, except the digits. -/
theorem isIdentifierStart_iff {c : Char} :
    isIdentifierStart c = true ↔ isIdentifierChar c = true ∧ c.isDigit = false := by
  rw [isIdentifierStart, isIdentifierChar, Char.isAlphanum]
  by_cases halpha : c.isAlpha = true
  · simp [halpha, isDigit_of_isAlpha halpha]
  · by_cases hunderscore : c = '_'
    · subst hunderscore
      decide
    · simp [halpha, hunderscore]

theorem IsIdentifier.isName {s : String} (h : IsIdentifier s.toList) : IsName s := by
  rw [IsName]
  cases htext : s.toList with
  | nil => exact fun c hc ↦ absurd hc List.not_mem_nil
  | cons c cs =>
    rw [htext] at h
    exact List.forall_mem_cons.2 ⟨(isIdentifierStart_iff.1 h.1).1, h.2⟩

/-! ### The three steps forwards -/

/-- What can stand in an identifier is kept. -/
theorem replaceOthers_eq_self {cs : List Char} (h : ∀ c ∈ cs, isIdentifierChar c = true) :
    replaceOthers cs = cs :=
  (List.map_congr_left fun c hc ↦ if_pos (h c hc)).trans (List.map_id cs)

/-- With its first character guarded, a text without other characters is an identifier. -/
theorem isIdentifier_guardDigit {cs : List Char} (h : ∀ c ∈ cs, isIdentifierChar c = true) :
    IsIdentifier (guardDigit cs) := by
  rcases cs with - | ⟨c, cs⟩
  · exact ⟨rfl, fun _ hd ↦ absurd hd List.not_mem_nil⟩
  · obtain ⟨hc, hcs⟩ := List.forall_mem_cons.1 h
    rw [guardDigit]
    split
    · exact ⟨rfl, h⟩
    · next hdigit => exact ⟨isIdentifierStart_iff.2 ⟨hc, Bool.eq_false_iff.2 hdigit⟩, hcs⟩

/-- An identifier does not begin with a digit. -/
theorem guardDigit_eq_self {cs : List Char} (h : IsIdentifier cs) : guardDigit cs = cs := by
  rcases cs with - | ⟨c, cs⟩
  · exact h.elim
  · rw [guardDigit, (isIdentifierStart_iff.1 h.1).2, if_neg Bool.false_ne_true]

theorem guardReserved_eq_self {s : String} (h : s ∉ reserved) : guardReserved s = s :=
  if_neg h

/-- A guarded word is not reserved: no reserved word is another one with an underscore. -/
theorem guardReserved_not_mem_reserved (s : String) : guardReserved s ∉ reserved := by
  have hguarded : ∀ r ∈ reserved, r ++ "_" ∉ reserved := by decide +kernel
  rw [guardReserved]
  split
  · next h => exact hguarded s h
  · next h => exact h

/-- An underscore behind it leaves an identifier an identifier. -/
theorem isIdentifier_guardReserved {s : String} (h : IsIdentifier s.toList) :
    IsIdentifier (guardReserved s).toList := by
  rw [guardReserved]
  split
  · rw [String.toList_append]
    cases htext : s.toList with
    | nil => rw [htext] at h; exact h.elim
    | cons c cs =>
      rw [htext] at h
      exact ⟨h.1, List.forall_mem_append.2 ⟨h.2, List.forall_mem_singleton.2 rfl⟩⟩
  · exact h

/-- An identifier for a text is usable. -/
theorem isUsable_identifier (s : String) : IsUsable (identifier s) := by
  refine ⟨isIdentifier_guardReserved ?_, guardReserved_not_mem_reserved _⟩
  rw [String.toList_ofList]
  exact isIdentifier_guardDigit fun c ↦ isIdentifierChar_of_mem_replaceOthers

/-- A usable name is its own identifier. -/
theorem identifier_eq_self {s : String} (h : IsUsable s) : identifier s = s := by
  rw [identifier, replaceOthers_eq_self h.isIdentifier.isName, guardDigit_eq_self h.isIdentifier,
    String.ofList_toList, guardReserved_eq_self h.not_mem_reserved]

/-- **Identifiers are a retraction onto the usable names.** The identifier for any text is usable,
the texts that stay as they are are the usable ones, and so an identifier is its own. A program is
the same whether its variable is named after a text or after the identifier for this text. -/
theorem identifier_retraction :
    (∀ s, IsUsable (identifier s)) ∧ (∀ s, identifier s = s ↔ IsUsable s) ∧
      (∀ s, identifier (identifier s) = identifier s) ∧
      ∀ (options : Options) (v : Json),
        v.program { options with rootName := identifier options.rootName } = v.program options := by
  have hidem : ∀ s, identifier (identifier s) = identifier s :=
    fun s ↦ identifier_eq_self (isUsable_identifier s)
  refine ⟨isUsable_identifier, fun s ↦ ⟨fun h ↦ h ▸ isUsable_identifier s, identifier_eq_self⟩,
    hidem, fun options v ↦ ?_⟩
  simp only [Json.program, Json.block, Json.assignments, Block.ofMembers, hidem]

/-- A text without characters, one that begins with a digit, and a keyword. -/
example : identifier "" = "_" ∧ identifier "9 lives" = "_9_lives" ∧ identifier "int" = "int_" := by
  decide

/-! ### The three steps backwards -/

/-- Whether the text is one that `guardDigit` gives to a text that it changes. -/
def isGuardedDigit : List Char → Bool
  | ['_'] => true
  | '_' :: c :: _ => c.isDigit
  | _ => false

/-- Without a guarded digit, an identifier is the guarded form of itself alone. -/
theorem guardDigit_eq_iff {cs m : List Char} (hm : IsIdentifier m)
    (hguard : isGuardedDigit m = false) : guardDigit cs = m ↔ cs = m := by
  refine ⟨fun h ↦ ?_, fun h ↦ h ▸ guardDigit_eq_self (h ▸ hm)⟩
  subst h
  rcases cs with - | ⟨c, cs⟩
  · exact absurd hguard (by decide)
  · rw [guardDigit] at hguard ⊢
    split
    · next hdigit =>
      rw [if_pos hdigit] at hguard
      exact absurd (hguard.symm.trans hdigit) Bool.false_ne_true
    · rfl

/-- A name that is no reserved word with an underscore is the guarded form of itself alone. -/
theorem guardReserved_eq_iff {s m : String} (hm : m ∉ reserved)
    (hguard : ∀ r ∈ reserved, r ++ "_" ≠ m) : guardReserved s = m ↔ s = m := by
  refine ⟨fun h ↦ ?_, fun h ↦ h ▸ guardReserved_eq_self (h ▸ hm)⟩
  rw [guardReserved] at h
  split at h
  · next hs => exact absurd h (hguard s hs)
  · exact h

/-- A usable name in which no guard has a part. -/
structure IsUnguarded (m : String) : Prop extends IsUsable m where
  digit : isGuardedDigit m.toList = false
  word : ∀ r ∈ reserved, r ++ "_" ≠ m

instance (m : String) : Decidable (IsUnguarded m) :=
  decidable_of_iff
    ((IsIdentifier m.toList ∧ m ∉ reserved) ∧ isGuardedDigit m.toList = false ∧
      ∀ r ∈ reserved, r ++ "_" ≠ m)
    ⟨fun h ↦ ⟨⟨h.1.1, h.1.2⟩, h.2.1, h.2.2⟩,
      fun h ↦ ⟨⟨h.isIdentifier, h.not_mem_reserved⟩, h.digit, h.word⟩⟩

/-- The texts that are given an unguarded name differ from it in replaced characters only. -/
theorem identifier_eq_iff {m : String} (hm : IsUnguarded m) (s : String) :
    identifier s = m ↔ String.ofList (replaceOthers s.toList) = m := by
  rw [identifier, guardReserved_eq_iff hm.not_mem_reserved hm.word, ← String.toList_inj,
    String.toList_ofList, guardDigit_eq_iff hm.isIdentifier hm.digit, ← String.toList_inj,
    String.toList_ofList]

/-- A name without underscores has no replaced character. -/
theorem replaceOthers_eq_iff {cs m : List Char} (hm : ∀ c ∈ m, isIdentifierChar c = true)
    (hunderscore : '_' ∉ m) : replaceOthers cs = m ↔ cs = m := by
  refine ⟨fun h ↦ ?_, fun h ↦ h ▸ replaceOthers_eq_self (h ▸ hm)⟩
  subst h
  refine (replaceOthers_eq_self fun c hc ↦ ?_).symm
  by_contra hother
  exact hunderscore (List.mem_map.2 ⟨c, hc, if_neg hother⟩)

/-! ### Names that are taken -/

/-- The macros that C11 requires the header of an include line to define. -/
def macrosOf : String → List String
  | "#include <stdbool.h>" => ["bool", "true", "false", "__bool_true_false_are_defined"]
  | "#include <stdio.h>" =>
    ["NULL", "EOF", "BUFSIZ", "FILENAME_MAX", "FOPEN_MAX", "L_tmpnam", "TMP_MAX", "SEEK_SET",
     "SEEK_CUR", "SEEK_END", "_IOFBF", "_IOLBF", "_IONBF", "stdin", "stdout", "stderr"]
  | _ => []

/-- The macros that are defined in every generated program. -/
def macros : List String :=
  Program.preamble.flatMap macrosOf

/-- The parameters of the function that a line begins. -/
def parametersOf : String → List String
  | "int main(int argc, char** argv) \x7b" => ["argc", "argv"]
  | _ => []

/-- The parameters of the main function of every generated program. -/
def parameters : List String :=
  Program.preamble.flatMap parametersOf

/-- A macro that is not reserved has no guard in its name. -/
theorem isUnguarded_of_mem_macros : ∀ m ∈ macros, m ∉ reserved → IsUnguarded m := by
  decide +kernel

theorem isUnguarded_of_mem_parameters : ∀ m ∈ parameters, IsUnguarded m ∧ '_' ∉ m.toList := by
  decide +kernel

/-- **Which names are taken.** The identifier for a text is a macro of an included header if and
only if the text is one that is not reserved, up to replaced characters; and the variable of a
program is named like a parameter of the main function if and only if it was to be. -/
theorem taken_iff (s : String) (options : Options) (v : Json) :
    (identifier s ∈ macros ↔
      String.ofList (replaceOthers s.toList) ∈ macros ∧
        String.ofList (replaceOthers s.toList) ∉ reserved) ∧
    ((v.block options).name ∈ parameters ↔ options.rootName ∈ parameters) := by
  constructor
  · constructor
    · intro h
      have hname := isUnguarded_of_mem_macros _ h (isUsable_identifier s).not_mem_reserved
      rw [(identifier_eq_iff hname s).1 rfl]
      exact ⟨h, hname.not_mem_reserved⟩
    · rintro ⟨h, hreserved⟩
      have hname := isUnguarded_of_mem_macros _ h hreserved
      rwa [(identifier_eq_iff hname s).2 rfl]
  · have hname : ∀ m ∈ parameters, identifier options.rootName = m ↔ options.rootName = m := by
      intro m hm
      obtain ⟨hunguarded, hunderscore⟩ := isUnguarded_of_mem_parameters m hm
      rw [identifier_eq_iff hunguarded, ← String.toList_inj, String.toList_ofList,
        replaceOthers_eq_iff hunguarded.isIdentifier.isName hunderscore, String.toList_inj]
    have hblock : (v.block options).name = identifier options.rootName := rfl
    rw [hblock]
    constructor
    · intro h
      rwa [(hname _ h).1 rfl]
    · intro h
      rwa [(hname _ h).2 rfl]

/-- Most macros can be the name of a member, and the variable can be named like a parameter. -/
theorem exists_taken :
    identifier "EOF" ∈ macros ∧ identifier "SEEK-SET" ∈ macros ∧
      ((Json.object []).block { rootName := "argc" }).name ∈ parameters := by
  decide +kernel

end C

end JsonEmbed
