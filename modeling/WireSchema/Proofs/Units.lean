import WireSchema.Proofs.Words
import WireSchema.Text.Utf16
import WireSchema.Wire.Cursor
import WireSchema.Wire.Writer

namespace WireSchema.Utf16

private theorem toNat_ofNat {n : Nat} (h : n.isValidChar) : (Char.ofNat n).toNat = n := by
  rw [Char.ofNat, dif_pos h]
  rfl

private theorem isHigh_iff (u : UInt16) : isHigh u = true ↔ 0xD800 ≤ u.toNat ∧ u.toNat < 0xDC00 := by
  simp [isHigh]

private theorem isLow_iff (u : UInt16) : isLow u = true ↔ 0xDC00 ≤ u.toNat ∧ u.toNat < 0xE000 := by
  simp [isLow]

private theorem toNat_pair {high low : UInt16} (hh : isHigh high = true) (hl : isLow low = true) :
    (pair high low).toNat = 0x10000 + (high.toNat - 0xD800) * 0x400 + (low.toNat - 0xDC00) := by
  rw [isHigh_iff] at hh
  rw [isLow_iff] at hl
  exact toNat_ofNat (Or.inr (by omega))

private theorem unitsOf_pair {high low : UInt16} (hh : isHigh high = true) (hl : isLow low = true) :
    unitsOf (pair high low) = [high, low] := by
  have hc := toNat_pair hh hl
  rw [isHigh_iff] at hh
  rw [isLow_iff] at hl
  have hhigh : 0xD800 + ((pair high low).toNat - 0x10000) / 0x400 = high.toNat := by omega
  have hlow : 0xDC00 + ((pair high low).toNat - 0x10000) % 0x400 = low.toNat := by omega
  rw [unitsOf, if_neg (by omega), hhigh, hlow, UInt16.ofNat_toNat, UInt16.ofNat_toNat]

private theorem unitsOf_single {u : UInt16} (hh : ¬isHigh u = true) (hl : ¬isLow u = true) :
    unitsOf (Char.ofNat u.toNat) = [u] := by
  rw [isHigh_iff] at hh
  rw [isLow_iff] at hl
  have hu := u.toNat_lt
  have hc : (Char.ofNat u.toNat).toNat = u.toNat := by
    apply toNat_ofNat
    rcases Nat.lt_or_ge u.toNat 0xD800 with h | h
    · exact Or.inl h
    · exact Or.inr (by omega)
  rw [unitsOf, hc, if_pos (by omega), UInt16.ofNat_toNat]

private theorem decode?_unitsOf_append (c : Char) (rest : List UInt16) :
    decode? (unitsOf c ++ rest) = (decode? rest).map (c :: ·) := by
  have hvalid : c.toNat < 0xD800 ∨ 0xDFFF < c.toNat ∧ c.toNat < 0x110000 := c.valid
  by_cases h : c.toNat < 0x10000
  · have hu : (UInt16.ofNat c.toNat).toNat = c.toNat := by
      rw [UInt16.toNat_ofNat', Nat.mod_eq_of_lt h]
    have hh : ¬isHigh (UInt16.ofNat c.toNat) = true := by rw [isHigh_iff, hu]; omega
    have hl : ¬isLow (UInt16.ofNat c.toNat) = true := by rw [isLow_iff, hu]; omega
    rw [unitsOf, if_pos h, List.singleton_append, decode?.eq_def]
    simp only [hh, hl, hu, Char.ofNat_toNat]
    rfl
  · have hbound : (c.toNat - 0x10000) / 0x400 < 0x400 := by omega
    have hhigh : (UInt16.ofNat (0xD800 + (c.toNat - 0x10000) / 0x400)).toNat =
        0xD800 + (c.toNat - 0x10000) / 0x400 := by
      rw [UInt16.toNat_ofNat', Nat.mod_eq_of_lt (by omega)]
    have hlow : (UInt16.ofNat (0xDC00 + (c.toNat - 0x10000) % 0x400)).toNat =
        0xDC00 + (c.toNat - 0x10000) % 0x400 := by
      rw [UInt16.toNat_ofNat', Nat.mod_eq_of_lt (by omega)]
    have hh : isHigh (UInt16.ofNat (0xD800 + (c.toNat - 0x10000) / 0x400)) = true := by
      rw [isHigh_iff, hhigh]; omega
    have hl : isLow (UInt16.ofNat (0xDC00 + (c.toNat - 0x10000) % 0x400)) = true := by
      rw [isLow_iff, hlow]; omega
    have hpair : pair (UInt16.ofNat (0xD800 + (c.toNat - 0x10000) / 0x400))
        (UInt16.ofNat (0xDC00 + (c.toNat - 0x10000) % 0x400)) = c := by
      rw [pair, hhigh, hlow, show 0x10000 + (0xD800 + (c.toNat - 0x10000) / 0x400 - 0xD800) * 0x400 +
        (0xDC00 + (c.toNat - 0x10000) % 0x400 - 0xDC00) = c.toNat by omega, Char.ofNat_toNat]
    rw [unitsOf, if_neg h, List.cons_append, List.singleton_append, decode?.eq_def]
    simp only [hh, hl, hpair]
    rfl

@[simp] theorem decode?_encode (s : List Char) : decode? (encode s) = some s := by
  induction s with
  | nil => rfl
  | cons c s ih =>
    unfold encode at ih ⊢
    rw [List.flatMap_cons, decode?_unitsOf_append, ih, Option.map_some]

theorem encode_of_decode? {units : List UInt16} {s : List Char} (h : decode? units = some s) :
    encode s = units := by
  fun_induction decode? units generalizing s with
  | case1 => cases h; rfl
  | case2 high hh low rest hl ih =>
    obtain ⟨t, ht, rfl⟩ := Option.map_eq_some_iff.mp h
    have htail := ih ht
    unfold encode at htail ⊢
    rw [List.flatMap_cons, unitsOf_pair hh hl, htail]
    rfl
  | case3 => contradiction
  | case4 => contradiction
  | case5 => contradiction
  | case6 u rest hh hl ih =>
    obtain ⟨t, ht, rfl⟩ := Option.map_eq_some_iff.mp h
    have htail := ih ht
    unfold encode at htail ⊢
    rw [List.flatMap_cons, unitsOf_single hh hl, htail]
    rfl

end WireSchema.Utf16

namespace WireSchema.Read

open Bytes

def unitBytes (us : List UInt16) : List UInt8 := us.flatMap fun u => bigEndian 2 u.toNat

theorem unitBytes_cons (u : UInt16) (us : List UInt16) :
    unitBytes (u :: us) = bigEndian 2 u.toNat ++ unitBytes us := rfl

theorem length_unitBytes (us : List UInt16) : (unitBytes us).length = 2 * us.length := by
  induction us with
  | nil => rfl
  | cons u us ih =>
    rw [unitBytes_cons, List.length_append, length_bigEndian, List.length_cons, ih]
    omega

theorem units_unitBytes (us : List UInt16) : units (unitBytes us) = us := by
  induction us with
  | nil => rfl
  | cons u us ih =>
    have hpair : bigEndian 2 u.toNat =
        [UInt8.ofNat (u.toNat / Nat.pow 256 1), UInt8.ofNat (u.toNat / Nat.pow 256 0)] := rfl
    have hlt : u.toNat < 256 ^ 2 := Nat.lt_of_lt_of_eq u.toNat_lt (by decide)
    have hunit := ofBigEndian_bigEndian_of_lt hlt
    rw [hpair] at hunit
    rw [unitBytes_cons, hpair, List.cons_append, List.singleton_append, units, hunit,
      UInt16.ofNat_toNat, ih]

theorem unitBytes_units {n : Nat} {bytes : List UInt8} (h : bytes.length = 2 * n) :
    unitBytes (units bytes) = bytes ∧ (units bytes).length = n := by
  induction n generalizing bytes with
  | zero =>
    have hnil : bytes = [] := List.length_eq_zero_iff.mp h
    subst hnil
    exact ⟨rfl, rfl⟩
  | succ n ih =>
    match bytes, h with
    | high :: low :: rest, h =>
      have hrest := @ih rest (by simp only [List.length_cons] at h; omega)
      have hlt : ofBigEndian [high, low] < 2 ^ 16 :=
        Nat.lt_of_lt_of_eq (ofBigEndian_lt [high, low]) (by simp)
      have hword : bigEndian 2 (ofBigEndian [high, low]) = [high, low] :=
        bigEndian_ofBigEndian [high, low]
      constructor
      · rw [units, unitBytes_cons, hrest.1, UInt16.toNat_ofNat', Nat.mod_eq_of_lt hlt, hword]
        rfl
      · rw [units, List.length_cons, hrest.2]

end WireSchema.Read

theorem WireSchema.Write.length_textBytes (us : List UInt16) :
    (textBytes us).length = 2 + 2 * us.length := by
  change (Bytes.bigEndian 2 us.length ++ Read.unitBytes us).length = _
  rw [List.length_append, Bytes.length_bigEndian, Read.length_unitBytes]
