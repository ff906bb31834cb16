import JsonEmbed.Proofs.Leaves

/-!
# Targets of assignments

The target of an assignment is a text, put together from identifiers, points, brackets and indices
while the document is walked. It is the path that the walk began with, and behind it a text that
only the way to the leaf decides: the keys, as identifiers, and the index. This way can be read back
from the text, so that two targets are one text only if the ways are the same
(`Leaf.target_eq_iff`), whatever the lengths of the ways are and whatever the path holds.

Two leaves can still have one target, as keys can have one identifier; then the ways are the same as
well, and this is what the targets say.
-/

namespace JsonEmbed

namespace Leaf

/-- The address of a leaf consists of names, whatever its keys are. -/
theorem isName_of_mem_address (l : Leaf) : ∀ n ∈ l.address.names, C.IsName n := by
  intro n hn
  obtain ⟨key, -, rfl⟩ := List.mem_map.1 hn
  exact C.isName_identifier key

/-- **Below one path, targets are equal if and only if the ways to the leaves are.** -/
theorem target_eq_iff (path : String) (l k : Leaf) :
    path ++ l.address.text = path ++ k.address.text ↔
      l.keys.map C.identifier = k.keys.map C.identifier ∧ l.index = k.index := by
  rw [String.append_right_inj]
  constructor
  · intro h
    exact Address.mk.inj
      (Address.text_injective l.isName_of_mem_address k.isName_of_mem_address h)
  · rintro ⟨hkeys, hindex⟩
    rw [address, address, hkeys, hindex]

end Leaf

/-- **Targets are unambiguous.** The assignments for an object belong to its leaves one by one.
Every target is the path followed by the text of the leaf's address, which the path has no part in,
and two targets are equal if and only if the keys on the way to their leaves are, as identifiers,
and the indices, or both have none. -/
theorem targets_unambiguous (options : Options) (path : String) (ms : List (String × Json)) :
    let assignments := Assignment.ofMembers options.arrayInitializer path ms
    let assigned := (Json.leavesOf ms).zip assignments
    assigned.map Prod.fst = Json.leavesOf ms ∧ assigned.map Prod.snd = assignments ∧
      ∀ p ∈ assigned,
        p.2.target = path ++ p.1.address.text ∧
        p.2.value = p.1.literal options.arrayInitializer ∧
        ∀ q ∈ assigned, p.2.target = q.2.target ↔
          p.1.keys.map C.identifier = q.1.keys.map C.identifier ∧ p.1.index = q.1.index := by
  intro assignments assigned
  have hassigned : assigned = (Json.leavesOf ms).map fun l ↦
      (l, l.assignment options.arrayInitializer path) := by
    show (Json.leavesOf ms).zip (Assignment.ofMembers _ path ms) = _
    rw [Assignment.ofMembers_eq_map_leaves, List.map_prod_left_eq_zip]
  have hassignment : ∀ p ∈ assigned, p.2 = p.1.assignment options.arrayInitializer path := by
    intro p hp
    rw [hassigned] at hp
    obtain ⟨l, -, rfl⟩ := List.mem_map.1 hp
    rfl
  refine ⟨?_, ?_, fun p hp ↦ ?_⟩
  · rw [hassigned, List.map_map]
    exact List.map_id _
  · rw [hassigned, List.map_map]
    exact (Assignment.ofMembers_eq_map_leaves _ path ms).symm
  · rw [hassignment p hp]
    refine ⟨rfl, rfl, fun q hq ↦ ?_⟩
    rw [hassignment q hq]
    exact Leaf.target_eq_iff path p.1 q.1

/-- Two keys with one identifier, and a way of two keys that reads almost like one of them. -/
theorem targets_unambiguous_respelled :
    let ms : List (String × Json) := [("a b", .array [.boolean true, .boolean false]),
      ("a-b", .array [.boolean true]), ("a", .object [("b", .string "x")])]
    let assigned := (Json.leavesOf ms).zip (Assignment.ofMembers .values "r" ms)
    let first : Leaf × Assignment :=
      (⟨["a b"], some 0, .boolean true⟩, ⟨"r.a_b[0]", .boolean true⟩)
    let respelled : Leaf × Assignment :=
      (⟨["a-b"], some 0, .boolean true⟩, ⟨"r.a_b[0]", .boolean true⟩)
    let deeper : Leaf × Assignment := (⟨["a", "b"], none, .string "x"⟩, ⟨"r.a.b", .string "x"⟩)
    (first ∈ assigned ∧ respelled ∈ assigned ∧ deeper ∈ assigned) ∧
      (first.1.keys.map C.identifier = respelled.1.keys.map C.identifier ∧
        first.1.index = respelled.1.index) ∧
      ¬(first.1.keys.map C.identifier = deeper.1.keys.map C.identifier ∧
        first.1.index = deeper.1.index) := by
  intro ms assigned first respelled deeper
  have hassigned : assigned = [first,
      (⟨["a b"], some 1, .boolean false⟩, ⟨"r.a_b[1]", .boolean false⟩), respelled, deeper] := rfl
  have hfirst : first ∈ assigned := by simp [hassigned]
  have hrespelled : respelled ∈ assigned := by simp [hassigned]
  have hdeeper : deeper ∈ assigned := by simp [hassigned]
  obtain ⟨-, -, htold⟩ := targets_unambiguous {} "r" ms
  have hequal := (htold first hfirst).2.2
  have htargets : first.2.target ≠ deeper.2.target := by decide
  exact ⟨⟨hfirst, hrespelled, hdeeper⟩, (hequal respelled hrespelled).1 rfl,
    fun h ↦ htargets ((hequal deeper hdeeper).2 h)⟩

end JsonEmbed
