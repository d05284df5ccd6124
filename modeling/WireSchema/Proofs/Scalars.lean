import WireSchema.Proofs.Narrowing
import WireSchema.Proofs.Streams
import WireSchema.Wire.Scalar

/-! The bytes of a scalar, said once for the integers of all widths, and the value that comes back from
them: that of the type's own width. -/

namespace WireSchema

namespace Bytes

/-- The word of an integer, a negative one in two's complement. -/
def intWord (width : Nat) (n : Int) : List UInt8 := bigEndian width (n % 256 ^ width).toNat

@[simp] theorem length_intWord (width : Nat) (n : Int) : (intWord width n).length = width :=
  length_bigEndian _ _

theorem intWord_natCast (width n : Nat) : intWord width n = bigEndian width n := by
  have hmod : ((n : Int) % 256 ^ width).toNat = n % 256 ^ width := by
    rw [← Int.toNat_natCast (n % 256 ^ width), Int.natCast_emod, Int.natCast_pow]
    rfl
  rw [intWord, hmod, bigEndian_mod]

theorem intWord_toInt {width w : Nat} (h : 2 ^ w = 256 ^ width) (b : BitVec w) :
    intWord width b.toInt = bigEndian width b.toNat := by
  have hpow : (256 : Int) ^ width = ((2 ^ w : Nat) : Int) := by
    rw [h, Int.natCast_pow]
    rfl
  rw [← intWord_natCast, intWord, intWord, hpow, BitVec.toInt_eq_toNat_bmod, Int.bmod_emod]

end Bytes

namespace Value

def integer? (v : Value) : Option Int :=
  v.toInt?.or (v.toBinary64?.bind Binary64.toInt?)

theorem integer?_of_toInt? {v : Value} {n : Int} (h : v.toInt? = some n) : v.integer? = some n := by
  rw [integer?, h, Option.some_or]

theorem toInt?_bounds {v : Value} {n : Int} (h : v.toInt? = some n) :
    -2 ^ 31 ≤ n ∧ n < 2 ^ 32 := by
  cases v <;> simp only [toInt?, Option.some.injEq, reduceCtorEq] at h <;> subst h
  case u8 n => have := n.toNat_lt; omega
  case u16 n => have := n.toNat_lt; omega
  case u32 n => have := n.toNat_lt; omega
  case i8 n => have := n.le_toInt; have := n.toInt_lt; omega
  case i16 n => have := n.le_toInt; have := n.toInt_lt; omega
  case i32 n => have := n.le_toInt; have := n.toInt_lt; omega

/-- Only integers beyond 64 bits are counted as others. -/
theorem integral?_eq (v : Value) : v.integral? = v.integer?.map clampInt64 := by
  unfold integral? integer?
  cases h : v.toInt? with
  | some n =>
    have hbounds := toInt?_bounds h
    simp only [Option.some_or, Option.map_some, Option.some.injEq, clampInt64]
    omega
  | none => rw [Option.none_or, Option.map_bind]; rfl

theorem toBool?_eq_some_iff {v : Value} {b : Bool} : v.toBool? = some b ↔ v = .bool b := by
  cases v <;> simp [toBool?]

theorem toString?_eq_some_iff {v : Value} {s : String} : v.toString? = some s ↔ v = .string s := by
  cases v <;> simp [toString?]

theorem items?_eq_some_iff {v : Value} {items : List Value} :
    v.items? = some items ↔ v = .array items := by
  cases v <;> simp [items?]

theorem fields?_eq_some_iff {v : Value} {fields : List (String × Value)} :
    v.fields? = some fields ↔ v = .object fields := by
  cases v <;> simp [fields?]

theorem toOption_expect {α : Type} (expected : Shape) (part : Value → Option α) (v : Value) :
    (v.expect expected part).toOption = part v := by
  unfold expect
  cases part v <;> rfl

end Value

namespace Scalar

open Bytes

/-- The values of an integer type as the integers they hold and as the words they are on the wire. -/
structure IntegerForm (α : Type) where
  width : Nat
  low : Int
  ofInt : Int → α
  toInt : α → Int
  value : α → Value
  read : Read α
  write : α → Write Unit
  bounds : -2 ^ 63 < low ∧ low + 256 ^ width < 2 ^ 63
  toInt_range : ∀ a, low ≤ toInt a ∧ toInt a < low + 256 ^ width
  ofInt_toInt : ∀ a, ofInt (toInt a) = a
  toInt_ofInt : ∀ n, low ≤ n → n < low + 256 ^ width → toInt (ofInt n) = n
  toInt?_value : ∀ a, (value a).toInt? = some (toInt a)
  exact_read : read.Exact
  yields_read_iff : ∀ held a, read.Yields held a ↔ held = intWord width (toInt a)
  write_eq : ∀ a, write a = Write.bytes (intWord width (toInt a))

def integerBytes? (width : Nat) (low : Int) (v : Value) : Option (List UInt8) := do
  let n ← v.integer?
  if low ≤ n ∧ n < low + 256 ^ width then some (intWord width n) else none

theorem integerBytes?_eq_some_iff {width : Nat} {low : Int} {v : Value} {held : List UInt8} :
    integerBytes? width low v = some held ↔ ∃ n, v.integer? = some n ∧
      (low ≤ n ∧ n < low + 256 ^ width) ∧ held = intWord width n := by
  simp only [integerBytes?, Option.bind_eq_bind, Option.bind_eq_some_iff,
    Option.ite_none_right_eq_some, Option.some.injEq, eq_comm (a := held)]

namespace IntegerForm

variable {α : Type} (form : IntegerForm α)

def normal (v : Value) : Value := v.integer?.elim v fun n => form.value (form.ofInt n)

variable {form} {v : Value} {held : List UInt8}

theorem yields_of_integerBytes? (h : integerBytes? form.width form.low v = some held) :
    (form.value <$> form.read).Yields held (form.normal v) := by
  obtain ⟨n, hn, hrange, rfl⟩ := integerBytes?_eq_some_iff.mp h
  rw [form.exact_read.map_yields_iff]
  refine ⟨form.ofInt n, ?_, ?_⟩
  · rw [form.yields_read_iff, form.toInt_ofInt n hrange.1 hrange.2]
  · rw [normal, hn]
    rfl

private theorem integer?_value (a : α) : (form.value a).integer? = some (form.toInt a) :=
  Value.integer?_of_toInt? (form.toInt?_value a)

theorem normal_value (a : α) : form.normal (form.value a) = form.value a := by
  rw [normal, integer?_value, Option.elim_some, form.ofInt_toInt]

theorem integerBytes?_value (a : α) :
    integerBytes? form.width form.low (form.value a) = some (intWord form.width (form.toInt a)) :=
  integerBytes?_eq_some_iff.mpr ⟨_, integer?_value a, form.toInt_range a, rfl⟩

theorem integerBytes?_normal (h : integerBytes? form.width form.low v = some held) :
    integerBytes? form.width form.low (form.normal v) = some held := by
  obtain ⟨n, hn, hrange, rfl⟩ := integerBytes?_eq_some_iff.mp h
  rw [normal, hn, Option.elim_some, integerBytes?_value, form.toInt_ofInt n hrange.1 hrange.2]

theorem of_yields (h : (form.value <$> form.read).Yields held v) :
    integerBytes? form.width form.low v = some held ∧ form.normal v = v := by
  obtain ⟨a, ha, rfl⟩ := form.exact_read.map_yields_iff.mp h
  rw [form.yields_read_iff] at ha
  exact ⟨ha ▸ integerBytes?_value a, normal_value a⟩

variable (form)

theorem writeInt_eq (type : Scalar) {high : Int} (h : high = form.low + 256 ^ form.width) (v : Value) :
    type.writeInt form.low high (fun n => form.write (form.ofInt n)) v =
      match v.integer? with
      | some n =>
        if form.low ≤ n ∧ n < high then Write.bytes (intWord form.width n)
        else Write.fail (.mismatch [] (.outOfRange (Value.clampInt64 n) type))
      | none => Write.fail (.mismatch [] (.shape (.scalar type) v.kind)) := by
  have hbounds := form.bounds
  rw [writeInt, Write.ofExcept_bind, Value.expect, Value.integral?_eq]
  cases v.integer? with
  | none => rfl
  | some n =>
    simp only [Option.map_some]
    by_cases hn : form.low ≤ n ∧ n < high
    · have hclamp : Value.clampInt64 n = n := by
        unfold Value.clampInt64
        omega
      rw [hclamp, if_pos hn, if_pos hn, form.write_eq, form.toInt_ofInt n hn.1 (h ▸ hn.2)]
    · have hclamp : ¬(form.low ≤ Value.clampInt64 n ∧ Value.clampInt64 n < high) := by
        unfold Value.clampInt64
        omega
      rw [if_neg hclamp, if_neg hn]

theorem output?_writeInt (type : Scalar) {high : Int} (h : high = form.low + 256 ^ form.width)
    (v : Value) :
    (type.writeInt form.low high (fun n => form.write (form.ofInt n)) v).output? =
      integerBytes? form.width form.low v := by
  rw [form.writeInt_eq type h, integerBytes?]
  cases v.integer? with
  | none => exact Write.output?_fail _
  | some n =>
    simp only [Option.bind_eq_bind, Option.bind_some, ← h]
    split
    · exact Write.output?_bytes _
    · exact Write.output?_fail _

end IntegerForm

def uint8Form : IntegerForm UInt8 where
  width := 1
  low := 0
  ofInt := UInt8.ofInt
  toInt n := n.toNat
  value := .u8
  read := Read.u8
  write := Write.u8
  bounds := by decide
  toInt_range n := by have := n.toNat_lt; omega
  ofInt_toInt n := by
    apply UInt8.toNat_inj.mp
    rw [UInt8.ofInt, UInt8.toNat_ofNat']
    have := n.toNat_lt
    omega
  toInt_ofInt n _ _ := by rw [UInt8.ofInt, UInt8.toNat_ofNat']; omega
  toInt?_value _ := rfl
  exact_read := Read.exact_u8
  yields_read_iff held n := by rw [Read.yields_u8_iff, intWord_natCast, bigEndian_one]
  write_eq n := by rw [intWord_natCast, bigEndian_one]; rfl

def uint16Form : IntegerForm UInt16 where
  width := 2
  low := 0
  ofInt := UInt16.ofInt
  toInt n := n.toNat
  value := .u16
  read := Read.u16
  write := Write.u16
  bounds := by decide
  toInt_range n := by have := n.toNat_lt; omega
  ofInt_toInt n := by
    apply UInt16.toNat_inj.mp
    rw [UInt16.ofInt, UInt16.toNat_ofNat']
    have := n.toNat_lt
    omega
  toInt_ofInt n _ _ := by rw [UInt16.ofInt, UInt16.toNat_ofNat']; omega
  toInt?_value _ := rfl
  exact_read := Read.exact_u16
  yields_read_iff held n := by rw [Read.yields_u16_iff, intWord_natCast]
  write_eq n := by rw [intWord_natCast]; rfl

def uint32Form : IntegerForm UInt32 where
  width := 4
  low := 0
  ofInt := UInt32.ofInt
  toInt n := n.toNat
  value := .u32
  read := Read.u32
  write := Write.u32
  bounds := by decide
  toInt_range n := by have := n.toNat_lt; omega
  ofInt_toInt n := by
    apply UInt32.toNat_inj.mp
    rw [UInt32.ofInt, UInt32.toNat_ofNat']
    have := n.toNat_lt
    omega
  toInt_ofInt n _ _ := by rw [UInt32.ofInt, UInt32.toNat_ofNat']; omega
  toInt?_value _ := rfl
  exact_read := Read.exact_u32
  yields_read_iff held n := by rw [Read.yields_u32_iff, intWord_natCast]
  write_eq n := by rw [intWord_natCast]; rfl

def int8Form : IntegerForm Int8 where
  width := 1
  low := -0x80
  ofInt := Int8.ofInt
  toInt := Int8.toInt
  value := .i8
  read := Read.i8
  write := Write.i8
  bounds := by decide
  toInt_range n := by have := n.le_toInt; have := n.toInt_lt; omega
  ofInt_toInt n := n.ofInt_toInt
  toInt_ofInt n hlow hhigh := Int8.toInt_ofInt_of_le hlow (by omega)
  toInt?_value _ := rfl
  exact_read := Read.exact_u8.map _
  yields_read_iff held n := by
    rw [Read.yields_i8_iff, ← bigEndian_one, Int8.toInt, intWord_toInt rfl]; rfl
  write_eq n := by rw [Int8.toInt, intWord_toInt rfl, Write.i8, Write.u8, ← bigEndian_one]; rfl

def int16Form : IntegerForm Int16 where
  width := 2
  low := -0x8000
  ofInt := Int16.ofInt
  toInt := Int16.toInt
  value := .i16
  read := Read.i16
  write := Write.i16
  bounds := by decide
  toInt_range n := by have := n.le_toInt; have := n.toInt_lt; omega
  ofInt_toInt n := n.ofInt_toInt
  toInt_ofInt n hlow hhigh := Int16.toInt_ofInt_of_le hlow (by omega)
  toInt?_value _ := rfl
  exact_read := Read.exact_u16.map _
  yields_read_iff held n := by rw [Read.yields_i16_iff, Int16.toInt, intWord_toInt rfl]; rfl
  write_eq n := by rw [Int16.toInt, intWord_toInt rfl]; rfl

def int32Form : IntegerForm Int32 where
  width := 4
  low := -0x80000000
  ofInt := Int32.ofInt
  toInt := Int32.toInt
  value := .i32
  read := Read.i32
  write := Write.i32
  bounds := by decide
  toInt_range n := by have := n.le_toInt; have := n.toInt_lt; omega
  ofInt_toInt n := n.ofInt_toInt
  toInt_ofInt n hlow hhigh := Int32.toInt_ofInt_of_le hlow (by omega)
  toInt?_value _ := rfl
  exact_read := Read.exact_u32.map _
  yields_read_iff held n := by rw [Read.yields_i32_iff, Int32.toInt, intWord_toInt rfl]; rfl
  write_eq n := by rw [Int32.toInt, intWord_toInt rfl]; rfl

def textBytes? (s : String) : Option (List UInt8) :=
  let units := Utf16.encode s.toList
  if units.length ≤ 65535 then
    some (bigEndian 2 units.length ++ units.flatMap fun u => bigEndian 2 u.toNat)
  else none

theorem textBytes?_eq_some_iff {s : String} {held : List UInt8} :
    textBytes? s = some held ↔ Read.text.Yields held s := by
  rw [Read.yields_text_iff]
  simp only [textBytes?, Option.ite_none_right_eq_some, Option.some.injEq, eq_comm (a := held)]
  rfl

theorem output?_text (s : String) : (Write.text s).output? = textBytes? s := by
  unfold textBytes? Write.text
  by_cases h : (Utf16.encode s.toList).length ≤ 65535
  · simp only [h, if_true, Write.maxUnits, Write.output?_bytes, Write.textBytes]
  · simp only [h, if_false, Write.maxUnits, Write.output?_fail]

/-- The bytes of a value as a scalar: integers and floating-point numbers of the type's width, a byte for
a truth value, and a counted text. -/
def bytes? (type : Scalar) (v : Value) : Option (List UInt8) :=
  match type with
  | uint8 => integerBytes? 1 0 v
  | uint16 => integerBytes? 2 0 v
  | uint32 => integerBytes? 4 0 v
  | int8 => integerBytes? 1 (-0x80) v
  | int16 => integerBytes? 2 (-0x8000) v
  | int32 => integerBytes? 4 (-0x80000000) v
  | float32 => v.toBinary64?.map fun x => bigEndian 4 x.toBinary32.bits.toNat
  | float64 => v.toBinary64?.map fun x => bigEndian 8 x.bits.toNat
  | boolean => v.toBool?.map fun b => [if b then 1 else 0]
  | string => v.toString?.bind textBytes?

/-- The value that a value stands for as a scalar: the same number in the type's own width. -/
def normal (type : Scalar) (v : Value) : Value :=
  match type with
  | uint8 => v.integer?.elim v fun n => .u8 (UInt8.ofInt n)
  | uint16 => v.integer?.elim v fun n => .u16 (UInt16.ofInt n)
  | uint32 => v.integer?.elim v fun n => .u32 (UInt32.ofInt n)
  | int8 => v.integer?.elim v fun n => .i8 (Int8.ofInt n)
  | int16 => v.integer?.elim v fun n => .i16 (Int16.ofInt n)
  | int32 => v.integer?.elim v fun n => .i32 (Int32.ofInt n)
  | float32 => v.toBinary64?.elim v fun x => .f32 x.toBinary32
  | float64 => v.toBinary64?.elim v .f64
  | boolean | string => v

theorem write_eq_bytes_or_fail (type : Scalar) (v : Value) :
    (∃ out, type.write v = Write.bytes out) ∨ ∃ why, type.write v = Write.fail (.mismatch [] why) := by
  have hpart : ∀ {α : Type} (part : Value → Option α) {k : α → Write Unit},
      (∀ a, (∃ out, k a = Write.bytes out) ∨ ∃ why, k a = Write.fail (.mismatch [] why)) →
      (∃ out, (Write.ofExcept (v.expect (.scalar type) part) >>= k) = Write.bytes out) ∨
        ∃ why, (Write.ofExcept (v.expect (.scalar type) part) >>= k) =
          Write.fail (.mismatch [] why) := by
    intro α part k hk
    rw [Write.ofExcept_bind, Value.expect]
    cases part v with
    | none => exact Or.inr ⟨_, rfl⟩
    | some a => exact hk a
  have hinteger : ∀ (low high : Int) {write : Int → Write Unit},
      (∀ n, ∃ out, write n = Write.bytes out) →
      (∃ out, type.writeInt low high write v = Write.bytes out) ∨
        ∃ why, type.writeInt low high write v = Write.fail (.mismatch [] why) := by
    intro low high write hwrite
    refine hpart Value.integral? fun n => ?_
    split
    · exact Or.inl (hwrite n)
    · exact Or.inr ⟨_, rfl⟩
  cases type with
  | uint8 | uint16 | uint32 | int8 | int16 | int32 => exact hinteger _ _ fun n => ⟨_, rfl⟩
  | float32 | float64 | boolean => exact hpart _ fun a => Or.inl ⟨_, rfl⟩
  | string =>
    refine hpart _ fun s => ?_
    simp only [Write.text]
    split
    · exact Or.inl ⟨_, rfl⟩
    · exact Or.inr ⟨_, rfl⟩

theorem steady_write (type : Scalar) (v : Value) : (type.write v).Steady := by
  rcases type.write_eq_bytes_or_fail v with ⟨out, hout⟩ | ⟨why, hwhy⟩
  · rw [hout]
    exact Write.steady_bytes _
  · rw [hwhy]
    exact Write.steady_fail _

theorem output?_write (type : Scalar) (v : Value) : (type.write v).output? = type.bytes? v := by
  cases type with
  | uint8 => exact uint8Form.output?_writeInt uint8 rfl v
  | uint16 => exact uint16Form.output?_writeInt uint16 rfl v
  | uint32 => exact uint32Form.output?_writeInt uint32 rfl v
  | int8 => exact int8Form.output?_writeInt int8 rfl v
  | int16 => exact int16Form.output?_writeInt int16 rfl v
  | int32 => exact int32Form.output?_writeInt int32 rfl v
  | float32 | float64 | boolean =>
    simp only [write, Write.output?_ofExcept_bind, Value.toOption_expect, bytes?, Option.map_eq_bind]
    rfl
  | string =>
    simp only [write, Write.output?_ofExcept_bind, Value.toOption_expect, bytes?, output?_text]

theorem exact_read (type : Scalar) : type.read.Exact := by
  cases type with
  | uint8 => exact Read.exact_u8.map _
  | uint16 => exact Read.exact_u16.map _
  | uint32 => exact Read.exact_u32.map _
  | int8 => exact (Read.exact_u8.map _).map _
  | int16 => exact (Read.exact_u16.map _).map _
  | int32 | float32 => exact (Read.exact_u32.map _).map _
  | float64 => exact Read.exact_f64.map _
  | boolean => exact (Read.exact_u8.map _).map _
  | string => exact Read.exact_text.map _

theorem length_bytes? {type : Scalar} {v : Value} {held : List UInt8}
    (h : type.bytes? v = some held) : match type.width? with
      | some width => held.length = width
      | none => ∃ s, v.toString? = some s ∧ held.length = Write.textSize s := by
  have hinteger {width : Nat} {low : Int} (h : integerBytes? width low v = some held) :
      held.length = width := by
    obtain ⟨n, -, -, rfl⟩ := integerBytes?_eq_some_iff.mp h
    exact length_intWord width n
  cases type with
  | uint8 | uint16 | uint32 | int8 | int16 | int32 => exact hinteger h
  | float32 | float64 | boolean =>
    obtain ⟨a, -, rfl⟩ := Option.map_eq_some_iff.mp h
    rfl
  | string =>
    obtain ⟨s, hs, h⟩ := Option.bind_eq_some_iff.mp h
    obtain ⟨-, rfl⟩ := Read.yields_text_iff.mp (textBytes?_eq_some_iff.mp h)
    exact ⟨s, hs, Write.length_textBytes _⟩

theorem yields_of_bytes? {type : Scalar} {v : Value} {held : List UInt8}
    (h : type.bytes? v = some held) : type.read.Yields held (type.normal v) := by
  cases type with
  | uint8 => exact uint8Form.yields_of_integerBytes? h
  | uint16 => exact uint16Form.yields_of_integerBytes? h
  | uint32 => exact uint32Form.yields_of_integerBytes? h
  | int8 => exact int8Form.yields_of_integerBytes? h
  | int16 => exact int16Form.yields_of_integerBytes? h
  | int32 => exact int32Form.yields_of_integerBytes? h
  | float32 =>
    obtain ⟨x, hx, rfl⟩ := Option.map_eq_some_iff.mp h
    rw [normal, hx]
    exact (Read.exact_u32.map _).map_yields_iff.mpr ⟨_, Read.yields_f32_iff.mpr rfl, rfl⟩
  | float64 =>
    obtain ⟨x, hx, rfl⟩ := Option.map_eq_some_iff.mp h
    rw [normal, hx]
    exact Read.exact_f64.map_yields_iff.mpr ⟨x, Read.yields_f64_iff.mpr rfl, rfl⟩
  | boolean =>
    obtain ⟨b, hb, rfl⟩ := Option.map_eq_some_iff.mp h
    obtain rfl := Value.toBool?_eq_some_iff.mp hb
    refine (Read.exact_u8.map _).map_yields_iff.mpr ⟨b, Read.yields_bool_iff.mpr ⟨_, rfl, ?_⟩, rfl⟩
    cases b <;> rfl
  | string =>
    obtain ⟨s, hs, h⟩ := Option.bind_eq_some_iff.mp h
    obtain rfl := Value.toString?_eq_some_iff.mp hs
    exact Read.exact_text.map_yields_iff.mpr ⟨s, textBytes?_eq_some_iff.mp h, rfl⟩

theorem bytes?_normal {type : Scalar} {v : Value} {held : List UInt8}
    (h : type.bytes? v = some held) : type.bytes? (type.normal v) = some held := by
  cases type with
  | uint8 => exact uint8Form.integerBytes?_normal h
  | uint16 => exact uint16Form.integerBytes?_normal h
  | uint32 => exact uint32Form.integerBytes?_normal h
  | int8 => exact int8Form.integerBytes?_normal h
  | int16 => exact int16Form.integerBytes?_normal h
  | int32 => exact int32Form.integerBytes?_normal h
  | float32 =>
    obtain ⟨x, hx, rfl⟩ := Option.map_eq_some_iff.mp h
    have hback := Binary32.toBinary32_toBinary64 x.isSignalling_toBinary32
    rw [normal, hx]
    exact congrArg (fun y : Binary32 => some (bigEndian 4 y.bits.toNat)) hback
  | float64 =>
    obtain ⟨x, hx, rfl⟩ := Option.map_eq_some_iff.mp h
    rw [normal, hx]
    rfl
  | boolean | string => exact h

/-- A value that is read is normal, unless it is a NaN that narrowing makes quiet. -/
theorem normal_of_yields {type : Scalar} {v : Value} {held : List UInt8}
    (h : type.read.Yields held v)
    (hquiet : ∀ x, type = .float32 → v = .f32 x → x.isSignalling = false) : type.normal v = v := by
  cases type with
  | uint8 => exact (uint8Form.of_yields h).2
  | uint16 => exact (uint16Form.of_yields h).2
  | uint32 => exact (uint32Form.of_yields h).2
  | int8 => exact (int8Form.of_yields h).2
  | int16 => exact (int16Form.of_yields h).2
  | int32 => exact (int32Form.of_yields h).2
  | float32 =>
    obtain ⟨x, -, rfl⟩ := (Read.exact_u32.map _).map_yields_iff.mp h
    simp only [normal, Value.toBinary64?, Option.elim_some,
      Binary32.toBinary32_toBinary64 (hquiet x rfl rfl)]
  | float64 =>
    obtain ⟨x, -, rfl⟩ := Read.exact_f64.map_yields_iff.mp h
    rfl
  | boolean | string => rfl

end Scalar

end WireSchema
