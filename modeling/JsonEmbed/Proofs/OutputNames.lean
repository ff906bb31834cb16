import JsonEmbed.Conversion
import JsonEmbed.Proofs.Places
import Mathlib.Data.List.TakeWhile

/-!
# Names of outputs

The output of a document is named after the document's file: before the extension stands what is
before the first dot of the file name, or its stem if there is nothing (`Conversion.base`). So the
name is a file name again: it holds no slash and leads nowhere else, and below a directory it names
a file in that directory. What this needs is that the document has a file name at all. Every
document that can be read from a file has one (`fileName?_of_start`): a path that ends in a dot or
two leads to a directory.
-/

namespace JsonEmbed

namespace Path

/-! ### Components -/

theorem component?_of_names {first : Bool} {piece : List Char} (h : Names piece) :
    component? first piece = some (.name (String.ofList piece)) := by
  obtain ⟨hempty, hdot, hdots⟩ := h
  rw [component?, if_neg hempty, if_neg hdot, if_neg hdots]

/-- Only a piece that names something is a name, and it is its own. -/
theorem names_of_component? {first : Bool} {piece : List Char} {text : String}
    (h : component? first piece = some (.name text)) :
    Names piece ∧ text = String.ofList piece := by
  rw [component?] at h
  split at h
  · exact absurd h (by simp)
  split at h
  · split at h <;> exact absurd h (by simp)
  split at h
  · exact absurd h (by simp)
  · exact ⟨⟨‹_›, ‹_›, ‹_›⟩, (Component.name.inj (Option.some.inj h)).symm⟩

theorem components_root {path : String} {cs : List Char} (h : path.toList = '/' :: cs) :
    components path = .root :: (splitOn '/' cs).filterMap (component? false) := by
  simp only [components, h]

theorem components_relative {path : String} (h : path.toList.head? ≠ some '/')
    {piece : List Char} {pieces : List (List Char)}
    (hsplit : splitOn '/' path.toList = piece :: pieces) :
    components path =
      (component? true piece).toList ++ pieces.filterMap (component? false) := by
  rw [components]
  split
  · next cs hcs => exact absurd (by rw [hcs]; rfl) h
  · rw [hsplit]

/-- The name of a component is a piece of the path. -/
theorem isFileName_of_mem_components {path text : String} (h : .name text ∈ components path) :
    IsFileName text := by
  have hpiece : ∀ (first : Bool) (cs piece : List Char), piece ∈ splitOn '/' cs →
      component? first piece = some (.name text) → IsFileName text := by
    intro first cs piece hmem hcomponent
    obtain ⟨hnames, rfl⟩ := names_of_component? hcomponent
    rw [← String.toList_ofList (l := piece)] at hmem hnames
    exact ⟨fun hslash ↦ (mem_of_mem_splitOn hmem '/' hslash).2 rfl, hnames⟩
  by_cases hroot : path.toList.head? = some '/'
  · obtain ⟨cs, hcs⟩ := List.head?_eq_some_iff.1 hroot
    rw [components_root hcs] at h
    obtain ⟨piece, hmem, hcomponent⟩ := List.mem_filterMap.1
      (List.mem_of_ne_of_mem Component.noConfusion h)
    exact hpiece false cs piece hmem hcomponent
  · rcases hsplit : splitOn '/' path.toList with - | ⟨piece, pieces⟩
    · exact absurd hsplit (splitOn_ne_nil '/' path.toList)
    rw [components_relative hroot hsplit, List.mem_append] at h
    rcases h with h | h
    · exact hpiece true _ piece (hsplit ▸ List.mem_cons_self) (Option.mem_toList.1 h)
    · obtain ⟨later, hmem, hcomponent⟩ := List.mem_filterMap.1 h
      exact hpiece false _ later (hsplit ▸ List.mem_cons_of_mem piece hmem) hcomponent

/-- The file name of a path is one piece of it, and names something. -/
theorem isFileName_of_fileName? {path name : String} (h : fileName? path = some name) :
    IsFileName name := by
  rw [fileName?] at h
  split at h
  · next text hlast =>
    rw [← Option.some.inj h]
    exact isFileName_of_mem_components (List.mem_of_getLast? hlast)
  · exact absurd h (by simp)

/-- A file name is its own file name. -/
theorem IsFileName.fileName? {name : String} (h : IsFileName name) :
    Path.fileName? name = some name := by
  have hhead : name.toList.head? ≠ some '/' := fun hhead ↦ h.slash (List.mem_of_head? hhead)
  have hcomponents : components name = [.name name] := by
    rw [components_relative hhead (splitOn_of_not_mem h.slash), component?_of_names h.names,
      String.ofList_toList]
    rfl
  rw [Path.fileName?, hcomponents]
  rfl

/-- A path whose last piece names something has it for its file name. -/
theorem fileName?_of_start {fs : FileSystem} {path : String} {here : Place}
    {before : List (List Char)} {piece : List Char}
    (h : fs.start path = (here, before ++ [piece])) (hpiece : Names piece) :
    fileName? path = some (String.ofList piece) := by
  have hlast : ∃ others, components path = others ++ [.name (String.ofList piece)] := by
    by_cases hroot : path.toList.head? = some '/'
    · obtain ⟨cs, hcs⟩ := List.head?_eq_some_iff.1 hroot
      rw [FileSystem.start_root hcs] at h
      have hpieces : splitOn '/' cs = before ++ [piece] := congrArg Prod.snd h
      refine ⟨.root :: before.filterMap (component? false), ?_⟩
      rw [components_root hcs, hpieces, List.filterMap_append, List.filterMap_cons,
        component?_of_names hpiece]
      rfl
    · rw [FileSystem.start_relative hroot] at h
      have hpieces : splitOn '/' path.toList = before ++ [piece] := congrArg Prod.snd h
      rcases before with - | ⟨first, before⟩
      · refine ⟨[], ?_⟩
        rw [components_relative hroot hpieces, component?_of_names hpiece]
        rfl
      · have hmore : splitOn '/' path.toList = first :: (before ++ [piece]) := hpieces
        refine ⟨(component? true first).toList ++ before.filterMap (component? false), ?_⟩
        rw [components_relative hroot hmore, List.filterMap_append, List.filterMap_cons,
          component?_of_names hpiece, List.append_assoc]
        rfl
  obtain ⟨others, hcomponents⟩ := hlast
  rw [fileName?, hcomponents, List.getLast?_concat]

/-! ### Stems -/

/-- The stem ends before the last dot, unless this is the first character. -/
theorem stem_of_last {name : String} {front last : List Char} (hname : name ≠ "..")
    (h : name.toList = front ++ '.' :: last) (hlast : '.' ∉ last) :
    stem name = if front = [] then name else String.ofList front := by
  rw [stem, if_neg hname, h, splitOn_append_cons, splitOn_of_not_mem hlast, List.reverse_concat]
  rcases hrev : (splitOn '.' front).reverse with - | ⟨before, rest⟩
  · exact absurd (List.reverse_eq_nil_iff.1 hrev) (splitOn_ne_nil '.' front)
  · have hfront : (before :: rest).reverse = splitOn '.' front := by
      rw [← hrev, List.reverse_reverse]
    simp only [hfront, joinWith_splitOn]

theorem exists_last_dot {cs : List Char} (h : '.' ∈ cs) :
    ∃ front last, cs = front ++ '.' :: last ∧ '.' ∉ last := by
  obtain ⟨last, front, hsplit, hlast⟩ := List.eq_append_cons_of_mem (List.mem_reverse.2 h)
  refine ⟨front.reverse, last.reverse, ?_, fun hmem ↦ hlast (List.mem_reverse.1 hmem)⟩
  rw [← List.reverse_reverse cs, hsplit, List.reverse_append, List.reverse_cons, List.append_assoc]
  rfl

/-- A stem is the whole name, or what is before its last dot. -/
theorem stem_cases (name : String) :
    stem name = name ∨ ∃ front last, front ≠ [] ∧ name.toList = front ++ '.' :: last ∧
      stem name = String.ofList front := by
  by_cases hname : name = ".."
  · exact .inl (by rw [stem, if_pos hname])
  by_cases hdot : '.' ∈ name.toList
  · obtain ⟨front, last, hsplit, hlast⟩ := exists_last_dot hdot
    rw [stem_of_last hname hsplit hlast]
    split
    · exact .inl rfl
    · next hfront => exact .inr ⟨front, last, hfront, hsplit, rfl⟩
  · exact .inl (by rw [stem, if_neg hname, splitOn_of_not_mem hdot]; rfl)

/-- A stem holds nothing that its name does not hold. -/
theorem slash_not_mem_stem {name : String} (h : '/' ∉ name.toList) :
    '/' ∉ (stem name).toList := by
  rcases stem_cases name with hstem | ⟨front, last, -, hsplit, hstem⟩ <;> rw [hstem]
  · exact h
  · rw [String.toList_ofList]
    exact fun hslash ↦ h (hsplit ▸ List.mem_append_left _ hslash)

theorem stem_ne_empty {name : String} (h : name ≠ "") : stem name ≠ "" := by
  rcases stem_cases name with hstem | ⟨front, last, hfront, -, hstem⟩ <;> rw [hstem]
  · exact h
  · simpa using hfront

end Path

namespace Conversion

/-! ### What a name begins with -/

/-- What is in a text before the first dot. -/
def beforeDot (text : String) : List Char :=
  text.toList.takeWhile (· ≠ '.')

/-- The name of an output up to the dot of its extension. -/
def base (input : String) : String :=
  let name := (Path.fileName? input).getD input
  if beforeDot name = [] then ((Path.fileName? name).map Path.stem).getD name
  else String.ofList (beforeDot name)

theorem outputName_eq (input extension : String) :
    outputName input extension = base input ++ "." ++ extension := by
  obtain ⟨parts, hparts⟩ := exists_splitOn_eq '.' ((Path.fileName? input).getD input).toList
  rw [outputName, base, hparts, ← beforeDot]
  rcases beforeDot ((Path.fileName? input).getD input) with - | ⟨c, cs⟩ <;> rfl

theorem beforeDot_subset (text : String) : beforeDot text ⊆ text.toList :=
  List.takeWhile_subset _

theorem base_of_fileName? {input name : String} (h : Path.fileName? input = some name) :
    base input =
      if beforeDot name = [] then Path.stem name else String.ofList (beforeDot name) := by
  rw [base, h]
  simp only [Option.getD_some, (Path.isFileName_of_fileName? h).fileName?, Option.map_some]

/-- No slash is in what the name of an output begins with if the document has a file name. -/
theorem slash_not_mem_base {input name : String} (h : Path.fileName? input = some name) :
    '/' ∉ (base input).toList := by
  have hname := (Path.isFileName_of_fileName? h).slash
  rw [base_of_fileName? h]
  split
  · exact Path.slash_not_mem_stem hname
  · rw [String.toList_ofList]
    exact fun hslash ↦ hname (beforeDot_subset name hslash)

/-! ### Names of outputs -/

/-- The outputs of documents with file names have file names. -/
theorem isFileName_outputName {input name : String} (h : Path.fileName? input = some name) :
    Path.IsFileName (outputName input "c") where
  slash := by
    have hextension : '/' ∉ ".c".toList := by decide
    rw [outputName_eq, String.append_assoc, String.toList_append, List.mem_append, not_or]
    exact ⟨slash_not_mem_base h, hextension⟩
  names := by
    -- none of the pieces that name nothing ends with the extension
    have hlast : (outputName input "c").toList.getLast? = some 'c' := by
      rw [outputName, String.toList_append]
      exact List.getLast?_concat
    refine ⟨?_, ?_, ?_⟩ <;>
    · intro hpiece
      rw [hpiece] at hlast
      exact absurd hlast (by decide)

end Conversion

end JsonEmbed
