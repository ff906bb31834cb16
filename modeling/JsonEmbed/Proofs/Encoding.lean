import JsonEmbed.Text.Utf8
import Mathlib.Data.UInt

/-!
# Decoding what was encoded

The bytes of a character are read back as this character, whatever bytes follow, and so a string is
read back from its bytes (`Utf8.decode?_encode`). A character of two bytes or more begins with a
byte that no reader of shorter forms takes, and each byte after that carries six bits.
-/

namespace JsonEmbed

namespace Utf8

/-- The bytes of a list of characters. -/
def bytes (cs : List Char) : Bytes :=
  cs.flatMap String.utf8EncodeChar

theorem encode_eq (s : String) : encode s = bytes s.toList :=
  rfl

theorem encode_append (s t : String) : encode (s ++ t) = encode s ++ encode t := by
  rw [encode_eq, String.toList_append, bytes, List.flatMap_append]
  rfl

theorem encode_ofList (cs : List Char) : encode (String.ofList cs) = bytes cs := by
  rw [encode_eq, String.toList_ofList]

theorem bytes_cons (c : Char) (cs : List Char) :
    bytes (c :: cs) = String.utf8EncodeChar c ++ bytes cs :=
  List.flatMap_cons

theorem bytes_append (as bs : List Char) : bytes (as ++ bs) = bytes as ++ bytes bs :=
  List.flatMap_append

/-! ### What each reader takes -/

section Readers

variable {a b c d : UInt8} {x : Char} (s : Bytes)

theorem scan_oneByte (h : oneByte? a = some x) : scan (a :: s) = push x (scan s) := by
  rw [scan.eq_def]
  simp only [h]

theorem scan_twoBytes (hone : oneByte? a = none) (h : twoBytes? a b = some x) :
    scan (a :: b :: s) = push x (scan s) := by
  rw [scan.eq_def]
  simp only [hone, h]

theorem scan_threeBytes (hone : oneByte? a = none) (htwo : twoBytes? a b = none)
    (h : threeBytes? a b c = some x) : scan (a :: b :: c :: s) = push x (scan s) := by
  rw [scan.eq_def]
  simp only [hone, htwo, h]

theorem scan_fourBytes (hone : oneByte? a = none) (htwo : twoBytes? a b = none)
    (hthree : threeBytes? a b c = none) (h : fourBytes? a b c d = some x) :
    scan (a :: b :: c :: d :: s) = push x (scan s) := by
  rw [scan.eq_def]
  simp only [hone, htwo, hthree, h]

theorem oneByte?_eq_none (h : 0x80 ≤ a.toNat) : oneByte? a = none :=
  if_neg (by omega)

theorem twoBytes?_eq_none (h : 0xe0 ≤ a.toNat) : twoBytes? a b = none := by
  have hlead : ¬a.toNat / 32 = 6 := by omega
  simp [twoBytes?, hlead]

theorem threeBytes?_eq_none (h : 0xf0 ≤ a.toNat) : threeBytes? a b c = none := by
  have hlead : ¬a.toNat / 16 = 14 := by omega
  simp [threeBytes?, hlead]

end Readers

/-! ### The bytes of one character -/

theorem charOf?_toNat (c : Char) : charOf? c.toNat = some c := by
  have hvalid : c.toNat.isValidChar := c.valid
  rw [charOf?, dif_pos hvalid]
  rfl

theorem toNat_ofNat {n : Nat} (h : n < 256) : (UInt8.ofNat n).toNat = n :=
  Nat.mod_eq_of_lt h

theorem continuation?_ofNat (n : Nat) :
    continuation? (UInt8.ofNat (n % 0x40 + 0x80)) = some (n % 0x40) := by
  have hlow : n % 0x40 < 0x40 := Nat.mod_lt _ (by decide)
  rw [continuation?, toNat_ofNat (by omega), if_pos (by omega)]
  congr 1
  omega

section Code

variable {n : Nat} {x : Char} (hx : charOf? n = some x)

include hx

theorem oneByte?_ofNat (h : n < 0x80) : oneByte? (UInt8.ofNat n) = some x := by
  rw [oneByte?, toNat_ofNat (by omega), if_pos h, hx]

theorem twoBytes?_ofNat (h : 0x80 ≤ n) (hn : n < 0x800) :
    twoBytes? (UInt8.ofNat (n / 64 % 0x20 + 0xc0)) (UInt8.ofNat (n % 0x40 + 0x80)) = some x := by
  have hlead : (UInt8.ofNat (n / 64 % 0x20 + 0xc0)).toNat = n / 64 + 0xc0 := by
    rw [toNat_ofNat (by omega)]
    omega
  have hmark : (n / 64 + 0xc0) / 32 = 6 := by omega
  have hcode : (n / 64 + 0xc0) % 32 * 64 + n % 0x40 = n := by omega
  rw [twoBytes?, hlead, continuation?_ofNat]
  simp only [hmark, guard_true, Option.bind_eq_bind, Option.bind_some, hcode, h]
  exact hx

theorem threeBytes?_ofNat (h : 0x800 ≤ n) (hn : n < 0x10000) :
    threeBytes? (UInt8.ofNat (n / 4096 % 0x10 + 0xe0)) (UInt8.ofNat (n / 64 % 0x40 + 0x80))
      (UInt8.ofNat (n % 0x40 + 0x80)) = some x := by
  have hlead : (UInt8.ofNat (n / 4096 % 0x10 + 0xe0)).toNat = n / 4096 + 0xe0 := by
    rw [toNat_ofNat (by omega)]
    omega
  have hmark : (n / 4096 + 0xe0) / 16 = 14 := by omega
  have hcode : ((n / 4096 + 0xe0) % 16 * 64 + n / 64 % 0x40) * 64 + n % 0x40 = n := by omega
  rw [threeBytes?, hlead, continuation?_ofNat, continuation?_ofNat]
  simp only [hmark, guard_true, Option.bind_eq_bind, Option.bind_some, hcode, h]
  exact hx

theorem fourBytes?_ofNat (h : 0x10000 ≤ n) (hn : n < 0x110000) :
    fourBytes? (UInt8.ofNat (n / 262144 % 0x08 + 0xf0)) (UInt8.ofNat (n / 4096 % 0x40 + 0x80))
      (UInt8.ofNat (n / 64 % 0x40 + 0x80)) (UInt8.ofNat (n % 0x40 + 0x80)) = some x := by
  have hlead : (UInt8.ofNat (n / 262144 % 0x08 + 0xf0)).toNat = n / 262144 + 0xf0 := by
    rw [toNat_ofNat (by omega)]
    omega
  have hmark : (n / 262144 + 0xf0) / 8 = 30 := by omega
  have hcode : (((n / 262144 + 0xf0) % 8 * 64 + n / 4096 % 0x40) * 64 + n / 64 % 0x40) * 64 +
      n % 0x40 = n := by omega
  rw [fourBytes?, hlead, continuation?_ofNat, continuation?_ofNat, continuation?_ofNat]
  simp only [hmark, guard_true, Option.bind_eq_bind, Option.bind_some, hcode, h]
  exact hx

end Code

theorem utf8EncodeChar_of_lt {c : Char} (h : c.toNat < 0x80) :
    String.utf8EncodeChar c = [UInt8.ofNat c.toNat] := by
  have hle : c.val.toNat ≤ 0x7f := Nat.le_of_lt_succ h
  rw [String.utf8EncodeChar, if_pos hle]
  rfl

/-- The bytes of a character beyond ASCII are beyond ASCII. -/
theorem le_of_mem_utf8EncodeChar {c : Char} (hc : 0x80 ≤ c.toNat) :
    ∀ b ∈ String.utf8EncodeChar c, 0x80 ≤ b.toNat := by
  have hbyte : ∀ {n : Nat}, 0x80 ≤ n → n < 0x100 → 0x80 ≤ (UInt8.ofNat n).toNat := by
    intro n hn hlt
    rwa [toNat_ofNat hlt]
  have hle : ¬c.val.toNat ≤ 0x7f := Nat.not_le.2 hc
  rw [String.utf8EncodeChar, if_neg hle]
  generalize c.val.toNat = n
  have hlead₂ := hbyte (n := n / 64 % 0x20 + 0xc0) (by omega) (by omega)
  have hlead₃ := hbyte (n := n / 4096 % 0x10 + 0xe0) (by omega) (by omega)
  have hlead₄ := hbyte (n := n / 262144 % 0x08 + 0xf0) (by omega) (by omega)
  have hlater : ∀ m : Nat, 0x80 ≤ (UInt8.ofNat (m % 0x40 + 0x80)).toNat :=
    fun m ↦ hbyte (by omega) (by omega)
  split
  · simp only [List.forall_mem_cons, hlead₂, hlater, List.not_mem_nil, true_and]
    exact fun _ h ↦ h.elim
  split
  · simp only [List.forall_mem_cons, hlead₃, hlater, List.not_mem_nil, true_and]
    exact fun _ h ↦ h.elim
  · simp only [List.forall_mem_cons, hlead₄, hlater, List.not_mem_nil, true_and]
    exact fun _ h ↦ h.elim

/-- A character is read back from its bytes. -/
theorem scan_utf8EncodeChar (c : Char) (s : Bytes) :
    scan (String.utf8EncodeChar c ++ s) = push c (scan s) := by
  have hc : charOf? c.val.toNat = some c := charOf?_toNat c
  have hmax : c.val.toNat < 0x110000 := by
    have hvalid := c.valid
    simp only [UInt32.isValidChar, Nat.isValidChar] at hvalid
    omega
  rw [String.utf8EncodeChar]
  generalize c.val.toNat = n at hc hmax ⊢
  split
  · exact scan_oneByte s (oneByte?_ofNat hc (by omega))
  have hlead₂ : 0x80 ≤ (UInt8.ofNat (n / 64 % 0x20 + 0xc0)).toNat := by
    rw [toNat_ofNat (by omega)]
    omega
  have hlead₃ : 0xe0 ≤ (UInt8.ofNat (n / 4096 % 0x10 + 0xe0)).toNat := by
    rw [toNat_ofNat (by omega)]
    omega
  have hlead₄ : 0xf0 ≤ (UInt8.ofNat (n / 262144 % 0x08 + 0xf0)).toNat := by
    rw [toNat_ofNat (by omega)]
    omega
  split
  · exact scan_twoBytes s (oneByte?_eq_none hlead₂) (twoBytes?_ofNat hc (by omega) (by omega))
  split
  · exact scan_threeBytes s (oneByte?_eq_none (by omega)) (twoBytes?_eq_none hlead₃)
      (threeBytes?_ofNat hc (by omega) (by omega))
  · exact scan_fourBytes s (oneByte?_eq_none (by omega)) (twoBytes?_eq_none (by omega))
      (threeBytes?_eq_none hlead₄) (fourBytes?_ofNat hc (by omega) hmax)

/-! ### Strings -/

theorem scan_bytes (cs : List Char) : scan (bytes cs) = (cs, []) := by
  induction cs with
  | nil => rfl
  | cons c cs ih => rw [bytes_cons, scan_utf8EncodeChar, ih, push]

/-- **A string is read back from its bytes.** -/
theorem decode?_encode (s : String) : decode? (encode s) = some s := by
  rw [decode?, encode_eq, scan_bytes]
  exact congrArg some String.ofList_toList

end Utf8

end JsonEmbed
