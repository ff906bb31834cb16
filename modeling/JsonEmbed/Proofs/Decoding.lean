import JsonEmbed.Proofs.Encoding
import Mathlib.Data.Option.Basic

/-!
# Bytes that can be decoded

A string has one encoding: the bytes that a reader of UTF-8 takes for a character are the bytes that
are written for it, since none of the four readers takes a form that is longer than necessary. So
scanning loses nothing (`Utf8.bytes_scan`), and the bytes that decode to a string are its own
(`Utf8.decode?_eq_some_iff`). Every byte of a character after its first is a continuation byte,
which no character begins with; a text that is put together from bytes and whole characters can
therefore be taken apart again.
-/

namespace JsonEmbed

namespace Utf8

/-! ### What each reader has taken -/

theorem toNat_of_charOf? {n : Nat} {x : Char} (h : charOf? n = some x) : x.val.toNat = n := by
  rw [charOf?] at h
  by_cases hvalid : n.isValidChar
  · rw [dif_pos hvalid] at h
    obtain rfl := Option.some.inj h
    rfl
  · rw [dif_neg hvalid] at h
    cases h

theorem continuation?_eq_some_iff {b : UInt8} {n : Nat} :
    continuation? b = some n ↔ b.toNat / 64 = 2 ∧ b.toNat % 64 = n := by
  rw [continuation?]
  split <;> simp_all

theorem ofNat_eq {b : UInt8} {n : Nat} (h : n = b.toNat) : UInt8.ofNat n = b := by
  rw [h, UInt8.ofNat_toNat]

section

variable {a b c d : UInt8} {x : Char}

theorem utf8EncodeChar_of_oneByte? (h : oneByte? a = some x) : String.utf8EncodeChar x = [a] := by
  rw [oneByte?] at h
  split at h
  · next hascii =>
    have hx := toNat_of_charOf? h
    rw [utf8EncodeChar_of_lt (by rwa [Char.toNat, hx]), Char.toNat, hx, UInt8.ofNat_toNat]
  · exact absurd h (by simp)

theorem utf8EncodeChar_of_twoBytes? (h : twoBytes? a b = some x) :
    String.utf8EncodeChar x = [a, b] := by
  simp only [twoBytes?, Option.bind_eq_bind, Option.bind_eq_some_iff, Option.guard_eq_some',
    continuation?_eq_some_iff] at h
  obtain ⟨-, hlead, low, ⟨hmark, rfl⟩, -, hmin, hx⟩ := h
  rw [String.utf8EncodeChar, toNat_of_charOf? hx, if_neg (by omega), if_pos (by omega),
    ofNat_eq (b := a) (by omega), ofNat_eq (b := b) (by omega)]

theorem utf8EncodeChar_of_threeBytes? (h : threeBytes? a b c = some x) :
    String.utf8EncodeChar x = [a, b, c] := by
  simp only [threeBytes?, Option.bind_eq_bind, Option.bind_eq_some_iff, Option.guard_eq_some',
    continuation?_eq_some_iff] at h
  obtain ⟨-, hlead, mid, ⟨hmid, rfl⟩, low, ⟨hlow, rfl⟩, -, hmin, hx⟩ := h
  rw [String.utf8EncodeChar, toNat_of_charOf? hx, if_neg (by omega), if_neg (by omega),
    if_pos (by omega), ofNat_eq (b := a) (by omega), ofNat_eq (b := b) (by omega),
    ofNat_eq (b := c) (by omega)]

theorem utf8EncodeChar_of_fourBytes? (h : fourBytes? a b c d = some x) :
    String.utf8EncodeChar x = [a, b, c, d] := by
  simp only [fourBytes?, Option.bind_eq_bind, Option.bind_eq_some_iff, Option.guard_eq_some',
    continuation?_eq_some_iff] at h
  obtain ⟨-, hlead, high, ⟨hhigh, rfl⟩, mid, ⟨hmid, rfl⟩, low, ⟨hlow, rfl⟩, -, hmin, hx⟩ := h
  rw [String.utf8EncodeChar, toNat_of_charOf? hx, if_neg (by omega), if_neg (by omega),
    if_neg (by omega), ofNat_eq (b := a) (by omega), ofNat_eq (b := b) (by omega),
    ofNat_eq (b := c) (by omega), ofNat_eq (b := d) (by omega)]

end

/-! ### Where a character begins -/

/-- A byte of a character after its first. -/
def IsContinuation (b : UInt8) : Prop :=
  b.toNat / 64 = 2

/-- Of the bytes of a character, all but the first are continuation bytes. -/
theorem exists_utf8EncodeChar_eq_cons (c : Char) :
    ∃ b more, String.utf8EncodeChar c = b :: more ∧ ¬IsContinuation b ∧
      ∀ b ∈ more, IsContinuation b := by
  have hlater : ∀ m : Nat, IsContinuation (UInt8.ofNat (m % 0x40 + 0x80)) := by
    intro m
    rw [IsContinuation, toNat_ofNat (by omega)]
    omega
  have hfirst : ∀ {m : Nat}, m < 0x100 → m < 0x80 ∨ 0xc0 ≤ m → ¬IsContinuation (UInt8.ofNat m) := by
    intro m hm hrange
    rw [IsContinuation, toNat_ofNat hm]
    omega
  rw [String.utf8EncodeChar]
  generalize c.val.toNat = n
  split
  · exact ⟨_, [], rfl, hfirst (by omega) (by omega), List.forall_mem_nil _⟩
  split
  · exact ⟨_, _, rfl, hfirst (by omega) (by omega), List.forall_mem_singleton.2 (hlater _)⟩
  split
  · refine ⟨_, _, rfl, hfirst (by omega) (by omega), List.forall_mem_cons.2 ⟨hlater _, ?_⟩⟩
    exact List.forall_mem_singleton.2 (hlater _)
  · refine ⟨_, _, rfl, hfirst (by omega) (by omega), List.forall_mem_cons.2 ⟨hlater _, ?_⟩⟩
    exact List.forall_mem_cons.2 ⟨hlater _, List.forall_mem_singleton.2 (hlater _)⟩

/-- A text begins with the bytes of at most one character. -/
theorem utf8EncodeChar_append_inj {c d : Char} {s t : Bytes}
    (h : String.utf8EncodeChar c ++ s = String.utf8EncodeChar d ++ t) : c = d ∧ s = t := by
  have hscan := scan_utf8EncodeChar c s
  rw [h, scan_utf8EncodeChar] at hscan
  obtain rfl : d = c := (List.cons.inj (congrArg Prod.fst hscan)).1
  exact ⟨rfl, List.append_cancel_left h⟩

/-! ### Nothing is lost -/

/-- The characters that are scanned and the bytes that are left are the text. -/
theorem bytes_scan (s : Bytes) : bytes (scan s).1 ++ (scan s).2 = s := by
  fun_induction scan s with
  | case1 => rfl
  | case2 a s x hone ih =>
    rw [push, bytes_cons, utf8EncodeChar_of_oneByte? hone, List.append_assoc, ih]
    rfl
  | case3 => rfl
  | case4 a b s hone x htwo ih =>
    rw [push, bytes_cons, utf8EncodeChar_of_twoBytes? htwo, List.append_assoc, ih]
    rfl
  | case5 => rfl
  | case6 a b c s hone htwo x hthree ih =>
    rw [push, bytes_cons, utf8EncodeChar_of_threeBytes? hthree, List.append_assoc, ih]
    rfl
  | case7 => rfl
  | case8 a b c d s hone htwo hthree x hfour ih =>
    rw [push, bytes_cons, utf8EncodeChar_of_fourBytes? hfour, List.append_assoc, ih]
    rfl
  | case9 => rfl

/-- **The bytes that decode to a string are those of the string.** -/
theorem decode?_eq_some_iff {bs : Bytes} {text : String} :
    decode? bs = some text ↔ bs = encode text := by
  refine ⟨fun h ↦ ?_, fun h ↦ h ▸ decode?_encode text⟩
  rw [decode?] at h
  split at h
  · next chars hscan =>
    obtain rfl := Option.some.inj h
    rw [encode_ofList, ← bytes_scan bs, hscan, List.append_nil]
  · exact absurd h (by simp)

end Utf8

end JsonEmbed
