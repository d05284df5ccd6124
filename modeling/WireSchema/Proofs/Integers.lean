import WireSchema.Proofs.Precision

/-! A float beyond 64 bits counts as the nearest integer of 64 bits, which makes no difference: no
integer type reaches that far, and no label does. -/

namespace WireSchema

/-- Is a mismatch right here on every writer, and leaves the writer as it is. -/
def Write.Rejects (m : Write Unit) : Prop :=
  ∀ w : Writer, ∃ why, m.run.run w = (.error (.mismatch [] why), w)

theorem Write.rejects_fail (why : Mismatch) : (Write.fail (.mismatch [] why)).Rejects :=
  fun _ => ⟨why, rfl⟩

theorem Write.Appends.not_rejects {m : Write Unit} {out : List UInt8} (h : m.Appends out) :
    ¬m.Rejects := by
  intro hrejects
  obtain ⟨w, hrun, -⟩ := h ∅
  obtain ⟨why, hfail⟩ := hrejects ∅
  cases hrun.symm.trans hfail

namespace Scalar

open Bytes

def integerRange? : Scalar → Option (Int × Int)
  | uint8 => some (0, 0xFF)
  | uint16 => some (0, 0xFFFF)
  | uint32 => some (0, 0xFFFFFFFF)
  | int8 => some (-0x80, 0x7F)
  | int16 => some (-0x8000, 0x7FFF)
  | int32 => some (-0x80000000, 0x7FFFFFFF)
  | float32 | float64 | boolean | string => none

theorem bounds_of_integerRange? {type : Scalar} {low high : Int}
    (h : type.integerRange? = some (low, high)) : -2 ^ 63 ≤ low ∧ low ≤ 0 ∧ 0 ≤ high ∧ high < 2 ^ 63 := by
  cases type <;> cases h <;> decide

theorem write_eq_of_integerRange? {type : Scalar} {low high : Int}
    (h : type.integerRange? = some (low, high)) : ∃ width, type.width? = some width ∧ ∀ v,
      type.write v = match v.integer? with
        | some n =>
          if low ≤ n ∧ n ≤ high then Write.bytes (intWord width n)
          else Write.fail (.mismatch [] (.outOfRange (Value.clampInt64 n) type))
        | none => Write.fail (.mismatch [] (.shape (.scalar type) v.kind)) := by
  have hform : ∀ {α : Type} (form : IntegerForm α) {limit : Int},
      limit = form.low + 256 ^ form.width → limit = high + 1 → ∀ v : Value,
      type.writeInt form.low limit (fun n => form.write (form.ofInt n)) v =
        match v.integer? with
        | some n =>
          if form.low ≤ n ∧ n ≤ high then Write.bytes (intWord form.width n)
          else Write.fail (.mismatch [] (.outOfRange (Value.clampInt64 n) type))
        | none => Write.fail (.mismatch [] (.shape (.scalar type) v.kind)) := by
    rintro α form limit hlimit rfl v
    rw [form.writeInt_eq type hlimit]
    cases v.integer? with
    | none => rfl
    | some n => exact if_congr (and_congr_right' Int.lt_add_one_iff) rfl rfl
  cases type with
  | uint8 => cases h; exact ⟨1, rfl, hform uint8Form rfl rfl⟩
  | uint16 => cases h; exact ⟨2, rfl, hform uint16Form rfl rfl⟩
  | uint32 => cases h; exact ⟨4, rfl, hform uint32Form rfl rfl⟩
  | int8 => cases h; exact ⟨1, rfl, hform int8Form rfl rfl⟩
  | int16 => cases h; exact ⟨2, rfl, hform int16Form rfl rfl⟩
  | int32 => cases h; exact ⟨4, rfl, hform int32Form rfl rfl⟩
  | float32 | float64 | boolean | string => cases h

end Scalar

namespace Layout

open Bytes Scalar

theorem isSome_ordinalOfInt?_iff {labels : List (Int32 × Int64)} {n : Int} :
    ((labelTable labels).ordinalOfInt? n).isSome = true ↔ ∃ l ∈ labels, l.1.toInt = n := by
  have hkeys : ∀ label : Int32, ((labelTable labels).ordinals.lookup label).isSome = true ↔
      label ∈ labels.map Prod.fst := by
    intro label
    refine Assoc.isSome_lookup_iff.trans (Assoc.mem_keys_ofList_iff.trans ?_)
    rw [List.map_map]
    rfl
  rw [LabelTable.ordinalOfInt?]
  split
  · rename_i hfits
    rw [hkeys, List.mem_map]
    constructor
    · rintro ⟨l, hl, heq⟩
      exact ⟨l, hl, heq ▸ hfits⟩
    · rintro ⟨l, hl, rfl⟩
      exact ⟨l, hl, l.1.ofInt_toInt.symm⟩
  · rename_i hfits
    refine iff_of_false (fun hnone => nomatch hnone) ?_
    rintro ⟨l, -, rfl⟩
    exact hfits (congrArg Int32.toInt l.1.ofInt_toInt)

theorem write_numberEnum_eq (labels : List (Int32 × Int64)) (v : Value) :
    write (.numberEnum (labelTable labels)) v = match v.integer? with
      | some n => writeOrdinal ((labelTable labels).ordinalOfInt? n)
          (.numberEnumLabel (Value.clampInt64 n))
      | none => Write.fail (.mismatch [] (.shape .numberEnumLabel v.kind)) := by
  rw [write, Write.ofExcept_bind, Value.expect, Value.integral?_eq]
  cases v.integer? with
  | none => rfl
  | some n => simp only [Option.map_some, ordinalOfInt?_clampInt64]

theorem write_numberEnum (labels : List (Int32 × Int64)) (v : Value) :
    ((∃ n : Int, v.toRat? = some (n : ℚ) ∧ ∃ l ∈ labels, l.1.toInt = n) →
      ∃ byte, (write (.numberEnum (labelTable labels)) v).Appends [byte]) ∧
    ((¬∃ n : Int, v.toRat? = some (n : ℚ) ∧ ∃ l ∈ labels, l.1.toInt = n) →
      ∀ w, ∃ failure, (write (.numberEnum (labelTable labels)) v).run.run w = (.error failure, w)) := by
  simp only [← Value.integer?_eq_some_iff, ← isSome_ordinalOfInt?_iff, write_numberEnum_eq]
  constructor
  · rintro ⟨n, hn, hlabel⟩
    obtain ⟨byte, hbyte⟩ := Option.isSome_iff_exists.mp hlabel
    rw [hn]
    simp only [hbyte]
    exact ⟨byte, Write.appends_bytes [byte]⟩
  · intro hnot w
    cases hn : v.integer? with
    | none => exact ⟨_, rfl⟩
    | some n =>
      cases hbyte : (labelTable labels).ordinalOfInt? n with
      | none =>
        simp only [hbyte]
        exact ⟨_, rfl⟩
      | some byte => exact absurd ⟨n, hn, by rw [hbyte]; rfl⟩ hnot

theorem write_integer {type : Scalar} {low high : Int} (hrange : type.integerRange? = some (low, high)) :
    ∃ width, type.width? = some width ∧
      (∀ (v : Value) (n : Int), v.toRat? = some (n : ℚ) → low ≤ n → n ≤ high →
        (write (.scalar type) v).Appends (intWord width n)) ∧
      ∀ v : Value, (¬∃ n : Int, v.toRat? = some (n : ℚ) ∧ low ≤ n ∧ n ≤ high) →
        (write (.scalar type) v).Rejects := by
  obtain ⟨width, hwidth, hwrite⟩ := write_eq_of_integerRange? hrange
  refine ⟨width, hwidth, fun v n hn hlow hhigh => ?_, fun v hnot => ?_⟩
  · rw [write, hwrite, Value.integer?_eq_some_iff.mpr hn]
    simp only [hlow, hhigh, and_self, if_true]
    exact Write.appends_bytes _
  · rw [write, hwrite]
    cases hn : v.integer? with
    | none => exact Write.rejects_fail _
    | some n =>
      have hout : ¬(low ≤ n ∧ n ≤ high) := fun h => hnot ⟨n, Value.integer?_eq_some_iff.mp hn, h⟩
      simp only [hout, if_false]
      exact Write.rejects_fail _

theorem encode_leaf {type : Scalar} {width : Nat} (hwidth : type.width? = some width)
    {discriminant : String} {c : Codec} (h : Codec.ofSchema ∅ discriminant (.scalar type) = .ok c)
    (v : Value) :
    (∀ out, (write (.scalar type) v).Appends out → c.encode v = .ok out) ∧
      ((write (.scalar type) v).Rejects → ∃ why, c.encode v = .error (.mismatch [] why)) := by
  have hplain := Codec.isPlain_of_empty h
  obtain ⟨-, layout, hlayout, rfl⟩ := Codec.ofSchema_eq_ok_iff.mp h
  cases hlayout
  constructor
  · intro out hout
    exact (Codec.encode_eq_ok_iff (hplain.compiles h)).mpr hout.output?
  · intro hrejects
    obtain ⟨why, hrun⟩ := hrejects (Writer.ofSize width)
    have hsize : Codec.size (.ofLayout ∅ (.scalar type) (.scalar type)) v = .ok width := by
      rw [Codec.size, Codec.ofLayout, size, hwidth]
    have hinto : Codec.encodeInto (.ofLayout ∅ (.scalar type) (.scalar type)) v (Writer.ofSize width) =
      (.error (.mismatch [] why), Writer.ofSize width) := hrun
    refine ⟨why, ?_⟩
    rw [Codec.encode_eq, hsize]
    simp only [bind, Except.bind, hinto]

/-- A leaf of an integer type takes exactly the integers of its range: integers of any width, and finite
floats without fractional part. It appends the word of the integer, as wide as the type, and any other
value is a mismatch that appends nothing. So both negative zeros are zero, and NaNs, infinities and
floats beyond 64 bits are refused. A message that is one leaf is encoded as that word or refused with the
mismatch, and the labels of a numeric enumeration are told from values in the same way. -/
theorem write_integer_leaf {type : Scalar} {low high : Int}
    (hrange : type.integerRange? = some (low, high)) :
    ∃ width, type.width? = some width ∧
      (∀ v : Value, (∃ out, (write (.scalar type) v).Appends out) ↔
        ∃ n : Int, v.toRat? = some (n : ℚ) ∧ low ≤ n ∧ n ≤ high) ∧
      (∀ (v : Value) (n : Int), v.toRat? = some (n : ℚ) → low ≤ n → n ≤ high →
        (write (.scalar type) v).Appends (intWord width n) ∧ (intWord width n).length = width) ∧
      (∀ v : Value, (¬∃ n : Int, v.toRat? = some (n : ℚ) ∧ low ≤ n ∧ n ≤ high) →
        (write (.scalar type) v).Rejects) ∧
      ((write (.scalar type) (.f32 ⟨0x80000000⟩)).Appends (intWord width 0) ∧
        (write (.scalar type) (.f64 ⟨0x8000000000000000⟩)).Appends (intWord width 0)) ∧
      ((∀ x : Binary32, x.isFinite = false → (write (.scalar type) (.f32 x)).Rejects) ∧
        ∀ x : Binary64, x.isFinite = false → (write (.scalar type) (.f64 x)).Rejects) ∧
      (∀ (v : Value) (q : ℚ), v.toRat? = some q → q < -2 ^ 63 ∨ 2 ^ 63 ≤ q →
        (write (.scalar type) v).Rejects) ∧
      (∀ (discriminant : String) (c : Codec),
        Codec.ofSchema ∅ discriminant (.scalar type) = .ok c → ∀ v : Value,
          (∀ out, c.encode v = .ok out ↔
            ∃ n : Int, v.toRat? = some (n : ℚ) ∧ low ≤ n ∧ n ≤ high ∧ intWord width n = out) ∧
          ((¬∃ n : Int, v.toRat? = some (n : ℚ) ∧ low ≤ n ∧ n ≤ high) →
            ∃ why, c.encode v = .error (.mismatch [] why))) ∧
      ∀ (labels : List (Int32 × Int64)) (v : Value),
        ((∃ out, (write (.numberEnum (labelTable labels)) v).Appends out) ↔
          ∃ n : Int, v.toRat? = some (n : ℚ) ∧ ∃ l ∈ labels, l.1.toInt = n) ∧
        ((¬∃ n : Int, v.toRat? = some (n : ℚ) ∧ ∃ l ∈ labels, l.1.toInt = n) → ∀ w, ∃ failure,
          (write (.numberEnum (labelTable labels)) v).run.run w = (.error failure, w)) := by
  obtain ⟨width, hwidth, happends, hrejects⟩ := write_integer hrange
  obtain ⟨hleast, hzero, hzero', hgreatest⟩ := bounds_of_integerRange? hrange
  have hnan : ∀ v : Value, v.toRat?.isSome = false → (write (.scalar type) v).Rejects := by
    intro v hv
    refine hrejects v ?_
    rintro ⟨n, hn, -⟩
    rw [hn] at hv
    cases hv
  have hnegative : (Value.f32 ⟨0x80000000⟩).integer? = some 0 := by decide +kernel
  have hnegative' : (Value.f64 ⟨0x8000000000000000⟩).integer? = some 0 := by decide +kernel
  refine ⟨width, hwidth, fun v => ⟨fun ⟨out, hout⟩ => ?_, ?_⟩, ?_, hrejects, ⟨?_, ?_⟩, ⟨?_, ?_⟩, ?_,
    fun discriminant c h v => ⟨fun out => ⟨fun hout => ?_, ?_⟩, fun hnot => ?_⟩, fun labels v => ?_⟩
  · by_contra hnot
    exact hout.not_rejects (hrejects v hnot)
  · rintro ⟨n, hn, hlow, hhigh⟩
    exact ⟨_, happends v n hn hlow hhigh⟩
  · exact fun v n hn hlow hhigh => ⟨happends v n hn hlow hhigh, length_intWord width n⟩
  · exact happends _ 0 (Value.integer?_eq_some_iff.mp hnegative) hzero hzero'
  · exact happends _ 0 (Value.integer?_eq_some_iff.mp hnegative') hzero hzero'
  · exact fun x hx => hnan _ (x.isSome_toRat?.trans hx)
  · exact fun x hx => hnan _ (x.isSome_toRat?.trans hx)
  · rintro v q hq hbeyond
    refine hrejects v ?_
    rintro ⟨n, hn, hlow, hhigh⟩
    obtain rfl : q = n := Option.some.inj (hq.symm.trans hn)
    have hint : n < -2 ^ 63 ∨ 2 ^ 63 ≤ n := by exact_mod_cast hbeyond
    omega
  · by_cases hn : ∃ n : Int, v.toRat? = some (n : ℚ) ∧ low ≤ n ∧ n ≤ high
    · obtain ⟨n, hn, hlow, hhigh⟩ := hn
      refine ⟨n, hn, hlow, hhigh, ?_⟩
      have hword := (encode_leaf hwidth h v).1 _ (happends v n hn hlow hhigh)
      exact Except.ok.inj (hword.symm.trans hout)
    · obtain ⟨why, hfail⟩ := (encode_leaf hwidth h v).2 (hrejects v hn)
      cases hfail.symm.trans hout
  · rintro ⟨n, hn, hlow, hhigh, rfl⟩
    exact (encode_leaf hwidth h v).1 _ (happends v n hn hlow hhigh)
  · exact (encode_leaf hwidth h v).2 (hrejects v hnot)
  · obtain ⟨haccept, hrefuse⟩ := write_numberEnum labels v
    refine ⟨⟨fun ⟨out, hout⟩ => ?_, fun h => ?_⟩, hrefuse⟩
    · by_contra hnot
      obtain ⟨w, hrun, -⟩ := hout ∅
      obtain ⟨failure, hfail⟩ := hrefuse hnot ∅
      cases hrun.symm.trans hfail
    · obtain ⟨byte, hbyte⟩ := haccept h
      exact ⟨_, hbyte⟩

/-- Minus two as a float is a word of two bytes, and two to the 63 is refused. -/
theorem write_integer_leaf_int16 :
    Scalar.int16.integerRange? = some (-0x8000, 0x7FFF) ∧
      (write (.scalar .int16) (.f64 ⟨0xC000000000000000⟩)).Appends [0xFF, 0xFE] ∧
      (write (.scalar .int16) (.f64 ⟨0x43E0000000000000⟩)).Rejects := by
  have hrange : Scalar.int16.integerRange? = some (-0x8000, 0x7FFF) := rfl
  obtain ⟨width, hwidth, -, happends, -, -, -, hbeyond, -⟩ := write_integer_leaf hrange
  obtain rfl : 2 = width := Option.some.inj hwidth
  have htwo : (Value.f64 ⟨0xC000000000000000⟩).integer? = some (-2) := by decide +kernel
  have hlarge : (Value.f64 ⟨0x43E0000000000000⟩).integer? = some (2 ^ 63) := by decide +kernel
  refine ⟨hrange, (happends _ _ (Value.integer?_eq_some_iff.mp htwo) (by decide) (by decide)).1,
    hbeyond _ _ (Value.integer?_eq_some_iff.mp hlarge) (Or.inr ?_)⟩
  norm_num

end Layout

end WireSchema
