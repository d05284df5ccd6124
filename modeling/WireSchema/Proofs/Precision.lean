import WireSchema.Proofs.Leaves
import WireSchema.Proofs.Refusals

/-! The types of integers refuse a number that they do not have, and 64 bits have every number of a
value; only 32 bits take a number that they do not have, and give another one back. -/

namespace WireSchema

open FloatFormat

namespace Value

/-- The number that a value of a numeric type is. -/
def toRat? : Value → Option ℚ
  | f32 x => x.toRat?
  | f64 x => x.toRat?
  | v => v.toInt?.map fun n => (n : ℚ)

theorem toRat?_of_toInt? {v : Value} {n : Int} (h : v.toInt? = some n) : v.toRat? = some (n : ℚ) := by
  cases v <;> cases h <;> rfl

theorem toRat?_eq_bind (v : Value) : v.toRat? = v.toBinary64?.bind Binary64.toRat? := by
  cases hn : v.toInt? with
  | some n =>
    have hsmall : n.natAbs < 2 ^ 53 := by
      have := toInt?_bounds hn
      omega
    have hfloat : v.toBinary64? = some (Binary64.ofInt n) := by
      cases v <;> cases hn <;> rfl
    rw [toRat?_of_toInt? hn, hfloat, Option.bind_some, Binary64.toRat?_ofInt hsmall]
  | none =>
    cases v with
    | u8 | u16 | u32 | i8 | i16 | i32 => cases hn
    | f32 x => exact x.toRat?_toBinary64.symm
    | _ => rfl

theorem integer?_eq_some_iff {v : Value} {n : Int} : v.integer? = some n ↔ v.toRat? = some (n : ℚ) := by
  rw [integer?]
  cases hm : v.toInt? with
  | some m =>
    rw [toRat?_of_toInt? hm, Option.some_or, Option.some.injEq, Option.some.injEq, Int.cast_inj]
  | none =>
    rw [Option.none_or, toRat?_eq_bind]
    cases v.toBinary64? with
    | none => simp
    | some x => exact Binary64.toInt?_eq_some_iff

theorem exists_toRat?_of_toBinary64? {v : Value} (h : v.isFinite = true) {x : Binary64}
    (hx : v.toBinary64? = some x) : ∃ q, v.toRat? = some q ∧ x.toRat? = some q := by
  have hbind : v.toRat? = x.toRat? := by rw [toRat?_eq_bind, hx, Option.bind_some]
  suffices hsome : v.toRat?.isSome = true by
    obtain ⟨q, hq⟩ := Option.isSome_iff_exists.mp hsome
    exact ⟨q, hq, hbind ▸ hq⟩
  cases v with
  | f32 y => exact y.isSome_toRat?.trans h
  | f64 y => exact y.isSome_toRat?.trans h
  | u8 | u16 | u32 | i8 | i16 | i32 => rfl
  | null | bool | string | array | object => cases hx

end Value

namespace Scalar

def isNumber : Scalar → Bool
  | boolean | string => false
  | _ => true

/-- The integers from `low` up to but not including `high`. -/
def IsIntegerIn (low high : Int) (q : ℚ) : Prop := ∃ n : Int, q = n ∧ low ≤ n ∧ n < high

/-- The type has the number. -/
def Represents : Scalar → ℚ → Prop
  | uint8 => IsIntegerIn 0 0x100
  | uint16 => IsIntegerIn 0 0x10000
  | uint32 => IsIntegerIn 0 0x100000000
  | int8 => IsIntegerIn (-0x80) 0x80
  | int16 => IsIntegerIn (-0x8000) 0x8000
  | int32 => IsIntegerIn (-0x80000000) 0x80000000
  | float32 => fun q => ∃ x : Binary32, x.toRat? = some q
  | float64 => fun q => ∃ x : Binary64, x.toRat? = some q
  | boolean | string => fun _ => False

namespace IntegerForm

variable {α : Type} {form : IntegerForm α} {v : Value} {held : List UInt8}

theorem toRat?_normal {high : Int} (hhigh : high = form.low + 256 ^ form.width)
    (h : integerBytes? form.width form.low v = some held) : ∃ q, v.toRat? = some q ∧
      (form.normal v).toRat? = some q ∧ IsIntegerIn form.low high q := by
  obtain ⟨n, hn, hrange, -⟩ := integerBytes?_eq_some_iff.mp h
  refine ⟨n, Value.integer?_eq_some_iff.mp hn, ?_, n, rfl, hhigh ▸ hrange⟩
  rw [normal, hn, Option.elim_some, Value.toRat?_of_toInt? (form.toInt?_value _),
    form.toInt_ofInt n hrange.1 hrange.2]

end IntegerForm

/-- A number that is written as a scalar comes back as it was exactly if the type has it, which every type
but one then does. -/
theorem toRat?_normal {type : Scalar} {v : Value} {held : List UInt8} (hnumber : type.isNumber = true)
    (hv : v.isFinite = true) (h : type.bytes? v = some held) : ∃ q, v.toRat? = some q ∧
      ((type.normal v).toRat? = some q ↔ type.Represents q) ∧
      (type ≠ .float32 → type.Represents q) := by
  have hinteger : ∀ {normal : Value} {low high : Int},
      (∃ q, v.toRat? = some q ∧ normal.toRat? = some q ∧ IsIntegerIn low high q) →
      ∃ q, v.toRat? = some q ∧ (normal.toRat? = some q ↔ IsIntegerIn low high q) ∧
        (type ≠ .float32 → IsIntegerIn low high q) := by
    rintro normal low high ⟨q, hq, hnormal, hin⟩
    exact ⟨q, hq, iff_of_true hnormal hin, fun _ => hin⟩
  cases type with
  | uint8 => exact hinteger (uint8Form.toRat?_normal rfl h)
  | uint16 => exact hinteger (uint16Form.toRat?_normal rfl h)
  | uint32 => exact hinteger (uint32Form.toRat?_normal rfl h)
  | int8 => exact hinteger (int8Form.toRat?_normal rfl h)
  | int16 => exact hinteger (int16Form.toRat?_normal rfl h)
  | int32 => exact hinteger (int32Form.toRat?_normal rfl h)
  | float32 =>
    obtain ⟨x, hx, -⟩ := Option.map_eq_some_iff.mp h
    obtain ⟨q, hq, hxq⟩ := Value.exists_toRat?_of_toBinary64? hv hx
    refine ⟨q, hq, ?_, fun hne => absurd rfl hne⟩
    rw [normal, hx]
    exact Binary64.toRat?_toBinary32_iff hxq
  | float64 =>
    obtain ⟨x, hx, -⟩ := Option.map_eq_some_iff.mp h
    obtain ⟨q, hq, hxq⟩ := Value.exists_toRat?_of_toBinary64? hv hx
    refine ⟨q, hq, ?_, fun _ => ⟨x, hxq⟩⟩
    rw [normal, hx]
    exact iff_of_true hxq ⟨x, hxq⟩
  | boolean | string => cases hnumber

theorem run_write_of_bytes?_eq_none {type : Scalar} {v : Value} (h : type.bytes? v = none)
    (w : Writer) : ∃ why, (type.write v).run.run w = (.error (.mismatch [] why), w) := by
  rcases type.write_eq_bytes_or_fail v with ⟨out, hout⟩ | ⟨why, hwhy⟩
  · rw [← type.output?_write, hout, Write.output?_bytes] at h
    cases h
  · exact ⟨why, hwhy ▸ rfl⟩

end Scalar

namespace Codec

variable {types : Extensions} {discriminant : String} {schema : Schema} {c : Codec}

/-- What is decoded has the leaves of the value that was encoded. A number comes back as it was exactly if
the type of its leaf has it, and only a float of 32 bits may be given one that it does not have. With such
a number at any other leaf the value is refused, and the leaf itself is a mismatch that writes nothing. -/
theorem decode_encode_number (h : ofSchema types discriminant schema = .ok c) (hplain : c.IsPlain)
    {v : Value} (hv : v.isFinite = true) :
    (∀ out, c.encode v = .ok out → ∃ w, c.decode out = .ok w ∧ ∀ path,
      (schema.leafAt? discriminant path w).map Prod.fst =
          (schema.leafAt? discriminant path v).map Prod.fst ∧
        ∀ type supplied decoded, type.isNumber = true →
          schema.leafAt? discriminant path v = some (type, supplied) →
          schema.leafAt? discriminant path w = some (type, decoded) →
          ∃ q, supplied.toRat? = some q ∧ (decoded.toRat? = some q ↔ type.Represents q) ∧
            (type ≠ .float32 → type.Represents q)) ∧
      ∀ path type supplied q, type.isNumber = true → type ≠ .float32 →
        schema.leafAt? discriminant path v = some (type, supplied) → supplied.toRat? = some q →
        ¬type.Represents q →
        (∃ failure, c.encode v = .error failure ∧ failure.IsRefusal) ∧
          ∀ w : Writer, ∃ why, (type.write supplied).run.run w = (.error (.mismatch [] why), w) := by
  have hc : Compiles (fun _ => False) discriminant schema c.layout := hplain.compiles h
  have hencode : ∀ out, c.encode v = .ok out ↔ schema.bytes? discriminant v = some out := by
    intro out
    rw [encode_eq_ok_iff (hplain.compiles h), Layout.output?_write hc]
  constructor
  · intro out hout
    rw [hencode] at hout
    refine ⟨schema.normal discriminant v, (decode_eq_ok_iff hc).mpr (Layout.yields_of_bytes? hc hout),
      fun path => ?_⟩
    obtain ⟨hnormal, hheld⟩ := Layout.leafAt?_normal path hc hout
    rw [hnormal]
    refine ⟨by rw [Option.map_map]; rfl, fun type supplied decoded hnumber hsupplied hdecoded => ?_⟩
    obtain ⟨held, hheld⟩ := hheld _ hsupplied
    rw [hsupplied] at hdecoded
    cases hdecoded
    exact Scalar.toRat?_normal hnumber (Schema.isFinite_of_leafAt? hsupplied hv) hheld
  · intro path type supplied q hnumber hne hsupplied hq hnot
    -- Bytes for the leaf would mean that its type has the number.
    have hnone : type.bytes? supplied = none := by
      rw [Option.eq_none_iff_forall_ne_some]
      intro held hheld
      obtain ⟨q', hq', -, hrepresents⟩ :=
        Scalar.toRat?_normal hnumber (Schema.isFinite_of_leafAt? hsupplied hv) hheld
      obtain rfl : q = q' := Option.some.inj (hq.symm.trans hq')
      exact hnot (hrepresents hne)
    refine ⟨?_, fun w => Scalar.run_write_of_bytes?_eq_none hnone w⟩
    cases hresult : c.encode v with
    | error failure => exact ⟨failure, rfl, refuses_encode h hplain v failure hresult⟩
    | ok out =>
      obtain ⟨held, hheld⟩ := (Layout.leafAt?_normal path hc ((hencode out).mp hresult)).2 _ hsupplied
      rw [hnone] at hheld
      cases hheld

private def tone : Schema := .record [("level", .scalar .uint8), ("gain", .optional (.scalar .float32))]

private def toneCodec : Codec :=
  .ofLayout ∅ tone (.record [("level", .scalar .uint8), ("gain", .optional (.scalar .float32))])

private def loud : Value := .object [("gain", .f64 ⟨0x3FE0000000000000⟩), ("level", .f64 ⟨0x4069000000000000⟩)]

/-- A half and two hundred keep their numbers in 32 bits and in a byte, which has no three hundred. -/
theorem decode_encode_number_tone :
    ofSchema ∅ "type" tone = .ok toneCodec ∧ toneCodec.IsPlain ∧ loud.isFinite = true ∧
      toneCodec.encode loud = .ok [200, 1, 0x3F, 0, 0, 0] ∧
      (∃ w, toneCodec.decode [200, 1, 0x3F, 0, 0, 0] = .ok w ∧
        (tone.leafAt? "type" [.field "gain"] w).map Prod.fst = some .float32) ∧
      ¬Scalar.uint8.Represents 300 ∧
      ∃ failure, toneCodec.encode (.object [("level", .u16 300)]) = .error failure ∧
        failure.IsRefusal := by
  have hcodec : ofSchema ∅ "type" tone = .ok toneCodec := rfl
  have hplain : toneCodec.IsPlain := isPlain_of_empty hcodec
  have hencode : toneCodec.encode loud = .ok [200, 1, 0x3F, 0, 0, 0] := rfl
  have hbyte : ¬Scalar.uint8.Represents 300 := by
    rintro ⟨n, hn, -, hlt⟩
    have h300 : (300 : Int) = n := by exact_mod_cast hn
    omega
  refine ⟨hcodec, hplain, rfl, hencode, ?_, hbyte, ?_⟩
  · obtain ⟨w, hdecode, hleaves⟩ := (decode_encode_number hcodec hplain rfl).1 _ hencode
    exact ⟨w, hdecode, (hleaves [.field "gain"]).1.trans rfl⟩
  · exact ((decode_encode_number (v := .object [("level", .u16 300)]) hcodec hplain rfl).2
      [.field "level"] .uint8 (.u16 300) 300 rfl (by decide) rfl rfl hbyte).1

private def gain : Codec := .ofLayout ∅ (.scalar .float32) (.scalar .float32)

/-- An integer of 25 binary digits is encoded as its neighbour, and two to the 128 as an infinity. -/
theorem encode_float32_loses :
    ofSchema ∅ "type" (.scalar .float32) = .ok gain ∧ gain.IsPlain ∧
      gain.encode (.u32 16777217) = .ok [0x4B, 0x80, 0, 0] ∧
      gain.decode [0x4B, 0x80, 0, 0] = .ok (.f32 ⟨0x4B800000⟩) ∧
      (Value.u32 16777217).toRat? = some 16777217 ∧ (Value.f32 ⟨0x4B800000⟩).toRat? = some 16777216 ∧
      (Value.f64 ⟨0x47F0000000000000⟩).isFinite = true ∧
      gain.encode (.f64 ⟨0x47F0000000000000⟩) = .ok [0x7F, 0x80, 0, 0] ∧
      (Value.f32 ⟨0x7F800000⟩).toRat? = none := by
  have hnear : (Value.f32 ⟨0x4B800000⟩).toRat? = some ((16777216 : Int) : ℚ) :=
    Value.integer?_eq_some_iff.mp rfl
  exact ⟨rfl, rfl, rfl, rfl, rfl, hnear, rfl, rfl, rfl⟩

end Codec

end WireSchema
