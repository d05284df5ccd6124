import WireSchema.Proofs.Sizing

/-! `Schema.bytes?` says by recursion on a schema which values it describes and what their bytes are,
with no tables, no layout and no writer. -/

namespace WireSchema

/-- The flag of a name, absent and null flags being unset. -/
def Value.flag? (fields : List (String × Value)) (name : String) : Option Bool :=
  match field fields name with
  | .null => some false
  | .bool set => some set
  | _ => none

namespace Schema

open Bytes

mutual

/-- The bytes of a value on the wire, if it is one of those that the schema describes. The names and
values of labels, flags, variants and fields are taken from the schema as it was declared. -/
def bytes? (discriminant : String) : Schema → Value → Option (List UInt8)
  | .scalar type, v => type.bytes? v
  | .custom _, _ => none
  | .enum labels, v => do
    let label ← v.toString?
    let ordinal ← labels.lookup label
    return bigEndian 1 ordinal.toInt.toNat
  | .numberEnum labels, v => do
    let n ← v.integer?
    let (_, ordinal) ← labels.find? fun l => l.1.toInt == n
    return bigEndian 1 ordinal.toInt.toNat
  | .bitmask flags, v => do
    let fields ← v.fields?
    let set ← (flagNames flags).mapM (Value.flag? fields)
    return [packFlags set]
  | .optional inner, v =>
    if v.isNull then some [0] else do return 1 :: (← bytes? discriminant inner v)
  | .array count element, v => do
    let items ← v.items?
    if items.length ≤ count.limit then
      let parts ← items.mapM (bytes? discriminant element)
      return bigEndian count.bytes items.length ++ parts.flatten
    else none
  | .union variants, v => do
    let fields ← v.fields?
    let tag ← (← fields.lookup discriminant).toString?
    variantBytes? discriminant variants 0 tag fields
  | .record schemas, v => do
    let fields ← v.fields?
    fieldsBytes? discriminant schemas fields

def fieldsBytes? (discriminant : String) :
    List (String × Schema) → List (String × Value) → Option (List UInt8)
  | [], _ => some []
  | (name, schema) :: rest, fields => do
    let first ← bytes? discriminant schema (Value.field fields name)
    let others ← fieldsBytes? discriminant rest fields
    return first ++ others

def variantBytes? (discriminant : String) : List (String × List (String × Schema)) → Nat → String →
    List (String × Value) → Option (List UInt8)
  | [], _, _, _ => none
  | (tag, schemas) :: rest, place, wanted, fields =>
    if tag = wanted then do return bigEndian 1 place ++ (← fieldsBytes? discriminant schemas fields)
    else variantBytes? discriminant rest (place + 1) wanted fields

end

section

variable {discriminant : String} {v : Value} {out : List UInt8}

theorem bytes?_numberEnum_iff {labels : List (Int32 × Int64)} :
    bytes? discriminant (.numberEnum labels) v = some out ↔ ∃ n label, v.integer? = some n ∧
      labels.find? (fun l => l.1.toInt == n) = some label ∧
      out = bigEndian 1 label.2.toInt.toNat := by
  simp only [bytes?, Option.bind_eq_bind, Option.bind_eq_some_iff, Option.pure_def,
    Option.some.injEq, eq_comm (a := out), exists_and_left]

theorem bytes?_bitmask_iff {flags : List (String × Int64)} :
    bytes? discriminant (.bitmask flags) v = some out ↔ ∃ fields set, v = .object fields ∧
      (flagNames flags).mapM (Value.flag? fields) = some set ∧ out = [packFlags set] := by
  simp only [bytes?, Option.bind_eq_bind, Option.bind_eq_some_iff, Option.pure_def,
    Option.some.injEq, Value.fields?_eq_some_iff, eq_comm (a := out), exists_and_left]

/-- In the byte of a bitmask the marker stands right above the flags, and every flag as many bits below the
marker as its position says. -/
theorem testBit_bitmask {flags : List (String × Int64)} (h : FlagsFit flags)
    (hout : bytes? discriminant (.bitmask flags) v = some out) :
    ∃ fields byte, v = .object fields ∧ out = [byte] ∧ byte.toNat.testBit flags.length = true ∧
      (∀ bit, flags.length < bit → byte.toNat.testBit bit = false) ∧
      ∀ f ∈ flags, Value.flag? fields f.1 =
        some (byte.toNat.testBit (flags.length - (f.2.toInt.toNat + 1))) := by
  obtain ⟨fields, set, rfl, hset, rfl⟩ := bytes?_bitmask_iff.mp hout
  have hflags := mapM_eq_some_iff_forall₂.mp hset
  have hlength : set.length = flags.length := by rw [← hflags.length_eq, Layout.length_flagNames h]
  have hfew : set.length ≤ 7 := hlength ▸ h.few
  refine ⟨fields, packFlags set, rfl, rfl, ?_, fun bit hbit => ?_, fun f hf => ?_⟩
  · rw [testBit_packFlags hfew, ← hlength, ← set.length_reverse, List.getElem?_concat_length,
      Option.getD_some]
  · rw [testBit_packFlags hfew, List.getElem?_eq_none (by simp; omega), Option.getD_none]
  · have hrange := h.range f hf
    have hname : (flagNames flags)[f.2.toInt.toNat]? = some f.1 := by
      rw [← Layout.orderedFlags_eq_flagNames h, Layout.getElem?_orderedFlags_iff h]
      exact ⟨f.2, hf, (Int.toNat_of_nonneg hrange.1).symm⟩
    obtain ⟨hplace, hname⟩ := List.getElem?_eq_some_iff.mp hname
    have hlt : f.2.toInt.toNat < set.length := by omega
    have hflag := (List.forall₂_iff_get.mp hflags).2 _ hplace hlt
    rw [List.get_eq_getElem, List.get_eq_getElem, hname] at hflag
    rw [hflag, ← hlength, testBit_packFlags_flag hfew hlt]

theorem bytes?_optional_iff {inner : Schema} :
    bytes? discriminant (.optional inner) v = some out ↔ v.isNull = true ∧ out = [0] ∨
      ¬v.isNull = true ∧ ∃ rest, bytes? discriminant inner v = some rest ∧ out = 1 :: rest := by
  rw [bytes?]
  by_cases hnull : v.isNull = true
  · simp [hnull, eq_comm (a := out)]
  · simp [hnull, eq_comm (a := out), Option.bind_eq_some_iff]

theorem bytes?_array_iff {count : CountWidth} {element : Schema} :
    bytes? discriminant (.array count element) v = some out ↔ ∃ items parts, v = .array items ∧
      items.length ≤ count.limit ∧ items.mapM (bytes? discriminant element) = some parts ∧
      out = bigEndian count.bytes items.length ++ parts.flatten := by
  simp only [bytes?, Option.bind_eq_bind, Option.bind_eq_some_iff, Option.pure_def,
    Option.ite_none_right_eq_some, Option.some.injEq, Value.items?_eq_some_iff, eq_comm (a := out),
    exists_and_left]

theorem bytes?_union_iff {variants : List (String × List (String × Schema))} :
    bytes? discriminant (.union variants) v = some out ↔ ∃ fields tag, v = .object fields ∧
      fields.lookup discriminant = some (.string tag) ∧
      variantBytes? discriminant variants 0 tag fields = some out := by
  simp only [bytes?, Option.bind_eq_bind, Option.bind_eq_some_iff, Value.fields?_eq_some_iff,
    Value.toString?_eq_some_iff]
  constructor
  · rintro ⟨fields, rfl, _, hlookup, tag, rfl, hout⟩
    exact ⟨fields, tag, rfl, hlookup, hout⟩
  · rintro ⟨fields, tag, rfl, hlookup, hout⟩
    exact ⟨fields, rfl, _, hlookup, tag, rfl, hout⟩

theorem bytes?_record_iff {schemas : List (String × Schema)} :
    bytes? discriminant (.record schemas) v = some out ↔ ∃ fields, v = .object fields ∧
      fieldsBytes? discriminant schemas fields = some out := by
  simp only [bytes?, Option.bind_eq_bind, Option.bind_eq_some_iff, Value.fields?_eq_some_iff]

theorem fieldsBytes?_cons_iff {name : String} {schema : Schema} {rest : List (String × Schema)}
    {fields : List (String × Value)} :
    fieldsBytes? discriminant ((name, schema) :: rest) fields = some out ↔ ∃ first others,
      bytes? discriminant schema (Value.field fields name) = some first ∧
      fieldsBytes? discriminant rest fields = some others ∧ out = first ++ others := by
  simp only [fieldsBytes?, Option.bind_eq_bind, Option.bind_eq_some_iff, Option.pure_def,
    Option.some.injEq, eq_comm (a := out), exists_and_left]

theorem variantBytes?_cons_iff {tag wanted : String} {schemas : List (String × Schema)}
    {rest : List (String × List (String × Schema))} {place : Nat} {fields : List (String × Value)} :
    variantBytes? discriminant ((tag, schemas) :: rest) place wanted fields = some out ↔
      tag = wanted ∧ (∃ others, fieldsBytes? discriminant schemas fields = some others ∧
        out = bigEndian 1 place ++ others) ∨
      tag ≠ wanted ∧ variantBytes? discriminant rest (place + 1) wanted fields = some out := by
  rw [variantBytes?]
  by_cases htag : tag = wanted
  · simp [htag, eq_comm (a := out), Option.bind_eq_some_iff]
  · simp [htag]

end

end Schema

namespace Layout

open Schema Bytes Write

private theorem bigEndian_ordinal {ordinal : Int64}
    (h : 0 ≤ ordinal.toInt ∧ ordinal.toInt ≤ 255) :
    bigEndian 1 ordinal.toInt.toNat = [ordinalByte ordinal] := by
  rw [← toNat_ordinalByte h, bigEndian_one]

private theorem bytes?_label {α : Type} [BEq α] [LawfulBEq α] {labels : List (α × Int64)}
    (h : LabelsFit labels) (label : α) :
    ((labelTable labels).ordinals.lookup label).map (fun byte => [byte]) =
      (labels.lookup label).map fun ordinal => bigEndian 1 ordinal.toInt.toNat := by
  rw [lookup_ordinals_labelTable h, Option.map_map]
  apply Option.map_congr
  intro ordinal hordinal
  have hmem := (Assoc.lookup_eq_some_iff_mem h.labels_nodup).mp hordinal
  exact (bigEndian_ordinal (h.range _ hmem)).symm

private theorem lookup_ofInt {labels : List (Int32 × Int64)} {n : Int}
    (h : (Int32.ofInt n).toInt = n) :
    labels.lookup (Int32.ofInt n) = (labels.find? fun l => l.1.toInt == n).map Prod.snd := by
  induction labels with
  | nil => rfl
  | cons l rest ih =>
    rw [List.lookup_cons, List.find?_cons, ih]
    by_cases hl : l.1.toInt = n
    · have heq : Int32.ofInt n = l.1 := by rw [← hl, l.1.ofInt_toInt]
      rw [beq_iff_eq.mpr heq, beq_iff_eq.mpr hl]
      rfl
    · have hne : Int32.ofInt n ≠ l.1 := fun heq => hl (heq ▸ h)
      rw [beq_false_of_ne hne, beq_false_of_ne hl]

theorem ordinalOfInt?_clampInt64 (labels : List (Int32 × Int64)) (n : Int) :
    (labelTable labels).ordinalOfInt? (Value.clampInt64 n) = (labelTable labels).ordinalOfInt? n := by
  by_cases h : Value.clampInt64 n = n
  · rw [h]
  · have hrange : ∀ m : Int32, -2 ^ 31 ≤ m.toInt ∧ m.toInt < 2 ^ 31 :=
      fun m => ⟨m.le_toInt, m.toInt_lt⟩
    have hn := hrange (Int32.ofInt n)
    have hclamp := hrange (Int32.ofInt (Value.clampInt64 n))
    unfold Value.clampInt64 at h
    rw [LabelTable.ordinalOfInt?, LabelTable.ordinalOfInt?, if_neg, if_neg]
    · omega
    · unfold Value.clampInt64 at hclamp ⊢
      omega

private theorem bytes?_numberLabel {labels : List (Int32 × Int64)} (h : LabelsFit labels) (n : Int) :
    ((labelTable labels).ordinalOfInt? (Value.clampInt64 n)).map (fun byte => [byte]) =
      (labels.find? fun l => l.1.toInt == n).map fun l => bigEndian 1 l.2.toInt.toNat := by
  rw [ordinalOfInt?_clampInt64]
  by_cases hn : (Int32.ofInt n).toInt = n
  · rw [LabelTable.ordinalOfInt?, if_pos hn, bytes?_label h, lookup_ofInt hn, Option.map_map]
    rfl
  · have hnone : labels.find? (fun l => l.1.toInt == n) = none := by
      rw [List.find?_eq_none]
      intro l _ hl
      rw [beq_iff_eq] at hl
      exact hn (by rw [← hl, l.1.ofInt_toInt])
    rw [LabelTable.ordinalOfInt?, if_neg hn, hnone]
    rfl

private theorem toOption_expectFlag (fields : List (String × Value)) (names : List String) :
    (names.mapM (Value.expectFlag fields)).toOption = names.mapM (Value.flag? fields) := by
  induction names with
  | nil => rfl
  | cons name rest ih =>
    have hflag : (Value.expectFlag fields name).toOption = Value.flag? fields name := by
      unfold Value.expectFlag Value.flag?
      cases Value.field fields name <;> rfl
    rw [List.mapM_cons, List.mapM_cons, ← ih, ← hflag]
    cases Value.expectFlag fields name with
    | error _ => rfl
    | ok set => cases rest.mapM (Value.expectFlag fields) <;> rfl

private theorem le_of_lookup_placeIndices {tags : List String} {k : Nat} (hk : k + tags.length ≤ 256)
    {tag : String} {index : UInt8} (h : (placeIndices k tags).lookup tag = some index) :
    k ≤ index.toNat := by
  induction tags generalizing k with
  | nil => cases h
  | cons t rest ih =>
    rw [List.length_cons] at hk
    have hstep : placeIndices k (t :: rest) = (t, UInt8.ofNat k) :: placeIndices (k + 1) rest := rfl
    rw [hstep, List.lookup_cons] at h
    split at h
    · cases h
      exact Nat.le_of_eq (UInt8.toNat_ofNat_of_lt' (Nat.lt_of_lt_of_le (by omega) hk)).symm
    · have := ih (by omega) h
      omega

section

variable {discriminant : String}

private theorem not_false_steady (e : Extension) (h : False) (v : Value) : (e.write v).Steady := h.elim

mutual

theorem output?_write : ∀ {schema : Schema} {layout : Layout},
    Compiles (fun _ => False) discriminant schema layout →
    ∀ v, (layout.write v).output? = schema.bytes? discriminant v
  | _, _, .scalar type, v => type.output?_write v
  | _, _, .extension _ he, _ => he.elim
  | .enum labels, _, .enum h, v => by
    simp only [output?_write_enum, bytes?_label h, Schema.bytes?, Option.bind_eq_bind, bind_pure_comp,
      Option.map_eq_map]
  | .numberEnum labels, _, .numberEnum h, v => by
    simp only [output?_write_numberEnum, Value.integral?_eq, Option.bind_map, Function.comp_def,
      bytes?_numberLabel h, Schema.bytes?, Option.bind_eq_bind, bind_pure_comp, Option.map_eq_map]
  | .bitmask flags, _, .bitmask h, v => by
    have hfew : ∀ fields : List (String × Value), ∀ set,
        (flagNames flags).mapM (Value.flag? fields) = some set → set.length ≤ maxFlags := by
      intro fields set hset
      rw [← (mapM_eq_some_iff_forall₂.mp hset).length_eq, length_flagNames h]
      exact h.few
    simp only [output?_write_bitmask, toOption_expectFlag, Schema.bytes?, Option.bind_eq_bind,
      bind_pure_comp, Option.map_eq_map]
    congr 1
    funext fields
    rw [Option.map_eq_bind]
    exact Option.bind_congr fun set hset => if_pos (hfew fields set hset)
  | .optional schema, .optional layout, .optional _ h, v => by
    simp only [output?_write_optional (steady_write not_false_steady h), output?_write h,
      Schema.bytes?, bind_pure_comp, Option.map_eq_map]
  | .array count schema, .array _ layout, .array h, v => by
    simp only [output?_write_array (steady_write not_false_steady h), output?_write h, Schema.bytes?,
      Option.bind_eq_bind, bind_pure_comp, Option.map_eq_map]
  | .union variants, .union _ layouts _, .union _ hmany _ h, v => by
    have hfew : 0 + variants.length ≤ 256 := by rwa [Nat.zero_add]
    simp only [output?_write_union (steady_writeVariant not_false_steady h), Schema.bytes?,
      Option.bind_eq_bind]
    congr 1
    funext fields
    congr 1
    funext tag
    congr 1
    funext tag
    exact output?_writeVariant h hfew tag fields
  | .record schemas, .record layouts, .record _ h, v => by
    simp only [output?_write_record, output?_writeFields h, Schema.bytes?, Option.bind_eq_bind]

theorem output?_writeFields : ∀ {schemas : List (String × Schema)} {layouts : List (String × Layout)},
    CompilesFields (fun _ => False) discriminant schemas layouts →
    ∀ fields, (writeFields layouts fields).output? = fieldsBytes? discriminant schemas fields
  | _, _, .nil, _ => output?_pure
  | _, _, .cons h hs, fields => by
    rw [output?_writeFields_cons _ (steady_write not_false_steady h _)
      (steady_writeFields not_false_steady hs fields), output?_write h, output?_writeFields hs]
    simp only [fieldsBytes?, Option.bind_eq_bind, bind_pure_comp, Option.map_eq_map]

theorem output?_writeVariant : ∀ {variants : List (String × List (String × Schema))}
    {layouts : List (VariantKey × List (String × Layout))},
    CompilesVariants (fun _ => False) discriminant variants layouts →
    ∀ {k : Nat}, k + variants.length ≤ 256 → ∀ tag fields,
    (((placeIndices k (variants.map Prod.fst)).lookup tag).bind fun index =>
      (writeVariant index layouts (index.toNat - k) fields).output?.map (index :: ·)) =
      variantBytes? discriminant variants k tag fields
  | _, _, .nil, _, _, _, _ => rfl
  | (t, schemas) :: variants, (_, layouts) :: others, .cons _ h hs, k, hk, tag, fields => by
    rw [List.length_cons] at hk
    have hstep : placeIndices k (((t, schemas) :: variants).map Prod.fst) =
      (t, UInt8.ofNat k) :: placeIndices (k + 1) (variants.map Prod.fst) := rfl
    rw [hstep, List.lookup_cons, variantBytes?]
    by_cases htag : t = tag
    · have hlt : k < 256 := by omega
      have hplace : (UInt8.ofNat k).toNat = k := UInt8.toNat_ofNat_of_lt' hlt
      rw [if_pos htag, beq_iff_eq.mpr htag.symm]
      simp only [Option.bind_some, hplace, Nat.sub_self, writeVariant, output?_writeFields h,
        bind_pure_comp, Option.map_eq_map]
      rw [bigEndian_one_ofNat]
      rfl
    · -- The byte of a later tag is at least `k + 1`, so one step of its place is taken here.
      rw [if_neg htag, beq_false_of_ne (Ne.symm htag), ← output?_writeVariant hs (by omega)]
      apply Option.bind_congr
      intro index hindex
      have hge := le_of_lookup_placeIndices (by rw [List.length_map]; omega) hindex
      rw [show index.toNat - k = index.toNat - (k + 1) + 1 by omega, writeVariant]

end

end

end Layout

namespace Codec

variable {types : Extensions} {discriminant : String} {schema : Schema} {c : Codec}

/-- Without custom types, exactly the values that the schema describes are encoded, to their bytes. -/
theorem encode_eq_ok_iff_bytes? (h : ofSchema types discriminant schema = .ok c) (hplain : c.IsPlain)
    (v : Value) (out : List UInt8) :
    c.encode v = .ok out ↔ schema.bytes? discriminant v = some out := by
  rw [encode_eq_ok_iff (hplain.compiles h), Layout.output?_write (hplain.compiles h)]

private def shape : Schema :=
  .union [("circle", [("radius", .scalar .uint16)]),
    ("label", [("text", .scalar .string), ("size", .optional (.scalar .int8)),
      ("style", .bitmask [("bold", 2), ("italic", 0), ("wide", 1)]), ("scale", .scalar .float32),
      ("stops", .array .two (.scalar .uint8))])]

private def shapeCodec : Codec :=
  .ofLayout ∅ shape (.union "type" [(⟨"circle", 0⟩, [("radius", .scalar .uint16)]),
    (⟨"label", 1⟩, [("text", .scalar .string), ("size", .optional (.scalar .int8)),
      ("style", .bitmask ["italic", "wide", "bold"]), ("scale", .scalar .float32),
      ("stops", .array .two (.scalar .uint8))])]
    [("circle", 0), ("label", 1)])

private def label : Value :=
  .object [("stops", .array [.i8 3, .f64 ⟨0x4014000000000000⟩]), ("size", .i32 (-2)),
    ("type", .string "label"), ("style", .object [("bold", .bool true), ("italic", .bool true)]),
    ("text", .string "hi"), ("scale", .f64 ⟨0x3FF8000000000000⟩)]

/-- A variant is written as its place and its fields: a text, a size below zero, two of three flags behind
their marker, a float that is narrowed, and two elements. -/
theorem encode_eq_ok_iff_bytes?_shape :
    ofSchema ∅ "type" shape = .ok shapeCodec ∧ shapeCodec.IsPlain ∧
      shape.bytes? "type" label =
        some [1, 0, 2, 0, 104, 0, 105, 1, 254, 0b1101, 0x3F, 0xC0, 0, 0, 0, 2, 3, 5] ∧
      shapeCodec.encode label =
        .ok [1, 0, 2, 0, 104, 0, 105, 1, 254, 0b1101, 0x3F, 0xC0, 0, 0, 0, 2, 3, 5] := by
  have hcodec : ofSchema ∅ "type" shape = .ok shapeCodec := by cbv
  have hplain : shapeCodec.IsPlain := isPlain_of_empty hcodec
  exact ⟨hcodec, hplain, rfl, (encode_eq_ok_iff_bytes? hcodec hplain _ _).mpr rfl⟩

end Codec

end WireSchema
