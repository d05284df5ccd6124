import Mathlib.Algebra.Order.Ring.Int
import Mathlib.Data.List.Induction
import WireSchema.Wire.Bytes

/-! Every byte string is the word of the number it denotes, and every byte but zero is that of the flags
below its marker. -/

namespace WireSchema.Bytes

@[simp] theorem ofBigEndian_nil : ofBigEndian [] = 0 := rfl

private theorem foldl_bytes (bytes : List UInt8) (n : Nat) :
    bytes.foldl (fun n b => 256 * n + b.toNat) n = n * 256 ^ bytes.length + ofBigEndian bytes := by
  induction bytes generalizing n with
  | nil => simp [ofBigEndian]
  | cons b rest ih =>
    simp only [ofBigEndian, List.foldl_cons, List.length_cons]
    rw [ih, ih (256 * 0 + b.toNat), Nat.pow_succ, Nat.add_mul, Nat.mul_zero, Nat.zero_add,
      Nat.add_assoc, Nat.mul_comm 256 n, Nat.mul_assoc, Nat.mul_comm 256]

theorem ofBigEndian_cons (b : UInt8) (rest : List UInt8) :
    ofBigEndian (b :: rest) = b.toNat * 256 ^ rest.length + ofBigEndian rest := by
  rw [ofBigEndian, List.foldl_cons, foldl_bytes, Nat.mul_zero, Nat.zero_add]

theorem ofBigEndian_lt (bytes : List UInt8) : ofBigEndian bytes < 256 ^ bytes.length := by
  induction bytes with
  | nil => simp
  | cons b rest ih =>
    have hb : b.toNat + 1 ≤ 256 := b.toNat_lt
    rw [ofBigEndian_cons, List.length_cons, Nat.pow_succ, Nat.mul_comm (256 ^ rest.length)]
    calc b.toNat * 256 ^ rest.length + ofBigEndian rest
        < b.toNat * 256 ^ rest.length + 256 ^ rest.length := Nat.add_lt_add_left ih _
      _ = (b.toNat + 1) * 256 ^ rest.length := by rw [Nat.succ_mul]
      _ ≤ 256 * 256 ^ rest.length := Nat.mul_le_mul_right _ hb

theorem ofBigEndian_bigEndian (width n : Nat) :
    ofBigEndian (bigEndian width n) = n % 256 ^ width := by
  induction width with
  | zero => simp [bigEndian, Nat.mod_one]
  | succ width ih =>
    rw [bigEndian, ofBigEndian_cons, length_bigEndian, ih, UInt8.toNat_ofNat', Nat.pow_eq,
      show (2 : Nat) ^ 8 = 256 from rfl, Nat.pow_succ, Nat.mod_mul, Nat.add_comm,
      Nat.mul_comm (256 ^ width)]

theorem ofBigEndian_bigEndian_of_lt {width n : Nat} (h : n < 256 ^ width) :
    ofBigEndian (bigEndian width n) = n := by
  rw [ofBigEndian_bigEndian, Nat.mod_eq_of_lt h]

private theorem bigEndian_add_mul (width n k : Nat) :
    bigEndian width (k * 256 ^ width + n) = bigEndian width n := by
  induction width generalizing k with
  | zero => rfl
  | succ width ih =>
    have hpos : 0 < 256 ^ width := Nat.pow_pos (by decide)
    have hsplit : k * 256 ^ (width + 1) + n = (k * 256) * 256 ^ width + n := by
      rw [Nat.pow_succ, Nat.mul_comm (256 ^ width), Nat.mul_assoc]
    have hdiv : ((k * 256) * 256 ^ width + n) / Nat.pow 256 width =
        k * 256 + n / Nat.pow 256 width := by
      rw [Nat.add_comm, Nat.mul_comm (k * 256)]
      exact (Nat.add_mul_div_left n (k * 256) hpos).trans (Nat.add_comm _ _)
    rw [bigEndian, bigEndian, hsplit, ih, hdiv]
    congr 1
    apply UInt8.toNat_inj.mp
    simp [UInt8.toNat_ofNat']

theorem bigEndian_mod (width n : Nat) : bigEndian width (n % 256 ^ width) = bigEndian width n := by
  have h := bigEndian_add_mul width (n % 256 ^ width) (n / 256 ^ width)
  rw [Nat.mul_comm, Nat.div_add_mod] at h
  exact h.symm

theorem bigEndian_ofBigEndian (bytes : List UInt8) :
    bigEndian bytes.length (ofBigEndian bytes) = bytes := by
  induction bytes with
  | nil => rfl
  | cons b rest ih =>
    have hpos : 0 < 256 ^ rest.length := Nat.pow_pos (by decide)
    have hdiv : (b.toNat * 256 ^ rest.length + ofBigEndian rest) / Nat.pow 256 rest.length =
        b.toNat := by
      rw [Nat.add_comm, Nat.mul_comm b.toNat]
      refine (Nat.add_mul_div_left _ _ hpos).trans ?_
      rw [Nat.div_eq_of_lt (ofBigEndian_lt rest), Nat.zero_add]
    rw [ofBigEndian_cons, List.length_cons, bigEndian, hdiv, bigEndian_add_mul, ih]
    simp

theorem bigEndian_one_ofNat (n : Nat) : bigEndian 1 n = [UInt8.ofNat n] := by
  simp [bigEndian, Nat.div_one]

theorem bigEndian_one (b : UInt8) : bigEndian 1 b.toNat = [b] := by
  rw [bigEndian_one_ofNat, UInt8.ofNat_toNat]

private def marked (flags : List Bool) : Nat :=
  flags.foldl (fun n flag => 2 * n + flag.toNat) 1

private def below (n : Nat) : List Bool :=
  (List.range n.log2).reverse.map fun bit => n.testBit bit

private theorem log2_double (n : Nat) (flag : Bool) (h : n ≠ 0) :
    (2 * n + flag.toNat).log2 = n.log2 + 1 := by
  have hlow := Nat.log2_self_le h
  have hhigh := Nat.lt_log2_self (n := n)
  have hflag := flag.toNat_le
  rw [Nat.log2_eq_iff (by omega), Nat.pow_succ, Nat.pow_succ 2 (n.log2 + 1)]
  omega

private theorem testBit_double_zero (n : Nat) (flag : Bool) :
    (2 * n + flag.toNat).testBit 0 = flag := by
  cases flag <;> simp [Nat.testBit_zero]

private theorem testBit_double_succ (n : Nat) (flag : Bool) (bit : Nat) :
    (2 * n + flag.toNat).testBit (bit + 1) = n.testBit bit := by
  have hhalf : (2 * n + flag.toNat) / 2 = n := by
    have := flag.toNat_lt
    omega
  rw [Nat.testBit_succ, hhalf]

private theorem below_double (n : Nat) (flag : Bool) (h : n ≠ 0) :
    below (2 * n + flag.toNat) = below n ++ [flag] := by
  unfold below
  rw [log2_double n flag h, List.range_succ_eq_map, List.reverse_cons, List.map_append,
    ← List.map_reverse, List.map_map]
  congr 1
  · apply List.map_congr_left
    intro bit _
    exact testBit_double_succ n flag bit
  · exact congrArg (fun last => [last]) (testBit_double_zero n flag)

private theorem marked_append (flags : List Bool) (flag : Bool) :
    marked (flags ++ [flag]) = 2 * marked flags + flag.toNat := by
  simp [marked]

private theorem marked_bounds (flags : List Bool) :
    2 ^ flags.length ≤ marked flags ∧ marked flags < 2 ^ (flags.length + 1) := by
  induction flags using List.reverseRecOn with
  | nil => decide
  | append_singleton flags flag ih =>
    have := flag.toNat_le
    rw [marked_append, List.length_append, List.length_singleton, Nat.pow_succ,
      Nat.pow_succ 2 (flags.length + 1)]
    omega

private theorem below_marked (flags : List Bool) : below (marked flags) = flags := by
  induction flags using List.reverseRecOn with
  | nil => decide
  | append_singleton flags flag ih =>
    have hpos : 0 < 2 ^ flags.length := Nat.pow_pos (by decide)
    have hne : marked flags ≠ 0 := by have := (marked_bounds flags).1; omega
    rw [marked_append, below_double _ _ hne, ih]

private theorem marked_below (n : Nat) (h : n ≠ 0) : marked (below n) = n := by
  induction n using Nat.strongRecOn with
  | ind n ih =>
    by_cases hone : n = 1
    · subst hone
      decide
    · have hbit : ((n % 2 == 1) : Bool).toNat = n % 2 := by
        rcases Nat.mod_two_eq_zero_or_one n with h | h <;> simp [h]
      have hsplit : n = 2 * (n / 2) + ((n % 2 == 1) : Bool).toNat := by rw [hbit]; omega
      have hhalf : n / 2 ≠ 0 := by omega
      rw [hsplit, below_double _ _ hhalf, marked_append, ih _ (by omega) hhalf]

private theorem testBit_marked (flags : List Bool) (bit : Nat) :
    (marked flags).testBit bit = ((flags.reverse ++ [true])[bit]?).getD false := by
  induction flags using List.reverseRecOn generalizing bit with
  | nil => cases bit <;> simp [marked, Nat.testBit_succ]
  | append_singleton flags flag ih =>
    rw [marked_append, List.reverse_append, List.reverse_singleton, List.singleton_append,
      List.cons_append]
    cases bit with
    | zero => exact testBit_double_zero _ flag
    | succ bit => rw [testBit_double_succ, ih, List.getElem?_cons_succ]

private theorem toNat_packFlags {flags : List Bool} (h : flags.length ≤ 7) :
    (packFlags flags).toNat = marked flags := by
  have hpow : 2 ^ (flags.length + 1) ≤ 2 ^ 8 := Nat.pow_le_pow_right (by decide) (by omega)
  have hbound : marked flags < 256 := Nat.lt_of_lt_of_le (marked_bounds flags).2 hpow
  rw [packFlags, UInt8.toNat_ofNat', ← marked, Nat.mod_eq_of_lt hbound]

/-- The bits of the byte from the lowest on: the flags from the last to the first, then the marker, and
nothing above it. -/
theorem testBit_packFlags {flags : List Bool} (h : flags.length ≤ 7) (bit : Nat) :
    (packFlags flags).toNat.testBit bit = ((flags.reverse ++ [true])[bit]?).getD false := by
  rw [toNat_packFlags h, testBit_marked]

theorem testBit_packFlags_flag {flags : List Bool} (h : flags.length ≤ 7) {i : Nat}
    (hi : i < flags.length) : (packFlags flags).toNat.testBit (flags.length - (i + 1)) = flags[i] := by
  have hplace : flags.length - 1 - (flags.length - (i + 1)) = i := by omega
  rw [testBit_packFlags h, List.getElem?_append_left (by rw [List.length_reverse]; omega),
    List.getElem?_reverse (by omega), hplace, List.getElem?_eq_getElem hi, Option.getD_some]

theorem unpackFlags_packFlags {flags : List Bool} (h : flags.length ≤ 7) :
    unpackFlags (packFlags flags) = flags := by
  have hread := below_marked flags
  unfold below at hread
  rwa [unpackFlags, toNat_packFlags h]

/-- A byte that has a marker comes back from the flags below it. -/
theorem packFlags_unpackFlags {byte : UInt8} (h : byte ≠ 0) :
    packFlags (unpackFlags byte) = byte := by
  have hne : byte.toNat ≠ 0 := fun hzero => h (UInt8.toNat_inj.mp hzero)
  have hread := marked_below byte.toNat hne
  unfold marked below at hread
  rw [packFlags, unpackFlags, hread, UInt8.ofNat_toNat]

@[simp] theorem unpackFlags_zero : unpackFlags 0 = [] := by
  decide

end WireSchema.Bytes
