import WireSchema.Proofs.Reading

/-! Which values decoding can give is said by the schema alone: decoding gives no other value, whatever
the bytes, and it gives each of these from some bytes. -/

namespace WireSchema

/-- The values of a scalar type. A floating-point number is told apart by its bits. -/
def Scalar.Holds : Scalar → Value → Prop
  | .uint8, v => ∃ n, v = .u8 n
  | .uint16, v => ∃ n, v = .u16 n
  | .uint32, v => ∃ n, v = .u32 n
  | .int8, v => ∃ n, v = .i8 n
  | .int16, v => ∃ n, v = .i16 n
  | .int32, v => ∃ n, v = .i32 n
  | .float32, v => ∃ x, v = .f32 x
  | .float64, v => ∃ x, v = .f64 x
  | .boolean, v => ∃ b, v = .bool b
  | .string, v => ∃ s, Utf16.length s ≤ 65535 ∧ v = .string s

namespace Schema

section

variable (discriminant : String)

mutual

/-- The values of a schema without custom types. -/
def Conforms : Schema → Value → Prop
  | .scalar type, v => type.Holds v
  | .custom _, _ => False
  | .enum labels, v => ∃ label, label ∈ labels.map Prod.fst ∧ v = .string label
  | .numberEnum labels, v => ∃ label, label ∈ labels.map Prod.fst ∧ v = .i32 label
  | .bitmask flags, v => ∃ fields, v = .object fields ∧ fields.map Prod.fst = flagNames flags ∧
    ∀ f ∈ fields, ∃ set, f.2 = .bool set
  | .optional inner, v => v = .null ∨ Conforms inner v
  | .array count element, v => ∃ items, v = .array items ∧ items.length ≤ count.limit ∧
    ∀ item ∈ items, Conforms element item
  | .union variants, v => ∃ tag fields, v = .object ((discriminant, .string tag) :: fields) ∧
    VariantConforms variants tag fields
  | .record schemas, v => ∃ fields, v = .object fields ∧ FieldsConform schemas fields

/-- The declared fields and no others, in the order of their declarations. -/
def FieldsConform : List (String × Schema) → List (String × Value) → Prop
  | [], fields => fields = []
  | (name, schema) :: rest, fields => ∃ v others, fields = (name, v) :: others ∧
    Conforms schema v ∧ FieldsConform rest others

def VariantConforms : List (String × List (String × Schema)) → String →
    List (String × Value) → Prop
  | [], _, _ => False
  | (tag, schemas) :: rest, wanted, fields =>
    tag = wanted ∧ FieldsConform schemas fields ∨ VariantConforms rest wanted fields

end

end

end Schema

namespace Read

variable {α β : Type}

def Gives (m : Read α) (a : α) : Prop := ∃ bytes, m.Yields bytes a

theorem Exact.gives_map_iff {m : Read α} (h : m.Exact) {f : α → β} {b : β} :
    (f <$> m).Gives b ↔ ∃ a, m.Gives a ∧ b = f a := by
  simp only [Gives, h.map_yields_iff]
  exact ⟨fun ⟨bytes, a, ha, hb⟩ => ⟨a, ⟨bytes, ha⟩, hb⟩, fun ⟨a, ⟨bytes, ha⟩, hb⟩ => ⟨bytes, a, ha, hb⟩⟩

theorem Exact.gives_map_iff_of_forall {m : Read α} (h : m.Exact) (hall : ∀ a, m.Gives a) {f : α → β}
    {b : β} : (f <$> m).Gives b ↔ ∃ a, b = f a := by
  simp only [h.gives_map_iff, hall, true_and]

theorem gives_text_iff {s : String} : text.Gives s ↔ Utf16.length s ≤ 65535 := by
  simp only [Gives, yields_text_iff, exists_and_left, exists_eq, and_true]
  exact Iff.rfl

theorem gives_bool (b : Bool) : bool.Gives b := by
  cases b with
  | false => exact ⟨[0], yields_bool_iff.mpr ⟨0, rfl, rfl⟩⟩
  | true => exact ⟨[1], yields_bool_iff.mpr ⟨1, rfl, rfl⟩⟩

theorem exists_yieldsEach_iff {m : Read α} {items : List α} :
    (∃ held, m.YieldsEach items held) ↔ ∀ a ∈ items, m.Gives a := by
  constructor
  · rintro ⟨held, h⟩
    exact h.exists_yields
  · intro h
    induction items with
    | nil => exact ⟨[], rfl⟩
    | cons a items ih =>
      rw [List.forall_mem_cons] at h
      obtain ⟨⟨first, hfirst⟩, hrest⟩ := h
      obtain ⟨second, hsecond⟩ := ih hrest
      exact ⟨first ++ second, first, second, rfl, hfirst, hsecond⟩

end Read

namespace Layout

open Schema Read

theorem gives_scalar_iff (type : Scalar) {v : Value} : type.read.Gives v ↔ type.Holds v := by
  cases type with
  | uint8 => exact exact_u8.gives_map_iff_of_forall fun _ => ⟨_, yields_u8_iff.mpr rfl⟩
  | uint16 => exact exact_u16.gives_map_iff_of_forall fun _ => ⟨_, yields_u16_iff.mpr rfl⟩
  | uint32 => exact exact_u32.gives_map_iff_of_forall fun _ => ⟨_, yields_u32_iff.mpr rfl⟩
  | int8 => exact (exact_u8.map _).gives_map_iff_of_forall fun _ => ⟨_, yields_i8_iff.mpr rfl⟩
  | int16 => exact (exact_u16.map _).gives_map_iff_of_forall fun _ => ⟨_, yields_i16_iff.mpr rfl⟩
  | int32 => exact (exact_u32.map _).gives_map_iff_of_forall fun _ => ⟨_, yields_i32_iff.mpr rfl⟩
  | float32 => exact (exact_u32.map _).gives_map_iff_of_forall fun _ => ⟨_, yields_f32_iff.mpr rfl⟩
  | float64 => exact exact_f64.gives_map_iff_of_forall fun _ => ⟨_, yields_f64_iff.mpr rfl⟩
  | boolean => exact (exact_u8.map _).gives_map_iff_of_forall gives_bool
  | string => exact exact_text.gives_map_iff.trans (by simp only [gives_text_iff]; rfl)

theorem gives_readLabel_iff {α : Type} [BEq α] [LawfulBEq α] {labels : List (α × Int64)}
    (h : LabelsFit labels) {unknown : UInt8 → Undeclared} {label : α} :
    (readLabel (labelTable labels) unknown).Gives label ↔ label ∈ labels.map Prod.fst := by
  simp only [Gives, yields_readLabel_iff, lookup_labels_labelTable h, lookup_ordinals_labelTable h]
  calc (∃ held byte, held = [byte] ∧ (labels.lookup label).map ordinalByte = some byte)
      ↔ ((labels.lookup label).map ordinalByte).isSome := by
        rw [Option.isSome_iff_exists]
        exact ⟨fun ⟨_, byte, _, hbyte⟩ => ⟨byte, hbyte⟩, fun ⟨byte, hbyte⟩ => ⟨_, byte, rfl, hbyte⟩⟩
    _ ↔ label ∈ labels.map Prod.fst := by
        rw [Option.isSome_map, List.lookup_isSome_iff, List.mem_map]
        simp only [beq_iff_eq, eq_comm (a := label)]

theorem gives_readFlags_iff {names : List String} (h : names.Nodup) (hfew : names.length ≤ 7)
    {v : Value} : (readFlags names).Gives v ↔ ∃ fields, v = .object fields ∧
      fields.map Prod.fst = names ∧ ∀ f ∈ fields, ∃ set, f.2 = .bool set := by
  simp only [Gives, yields_readFlags_iff h]
  constructor
  · rintro ⟨_, byte, -, hlength, rfl⟩
    refine ⟨_, rfl, List.map_fst_zip (by rw [List.length_map, hlength]), ?_⟩
    rintro ⟨name, v⟩ hf
    obtain ⟨set, -, rfl⟩ := List.mem_map.mp (List.of_mem_zip hf).2
    exact ⟨set, rfl⟩
  · rintro ⟨fields, rfl, rfl, hset⟩
    let flags := fields.map fun f => f.2.toBool?.getD false
    have hbytes : Bytes.unpackFlags (Bytes.packFlags flags) = flags :=
      Bytes.unpackFlags_packFlags (by simpa [flags] using hfew)
    have hfields : (fields.map Prod.fst).zip (flags.map Value.bool) = fields := by
      rw [List.map_map, List.zip_map']
      refine (List.map_congr_left fun f hf => ?_).trans (List.map_id fields)
      obtain ⟨set, hf⟩ := hset f hf
      simp [hf, Value.toBool?, Prod.ext_iff]
    refine ⟨_, Bytes.packFlags flags, rfl, ?_, ?_⟩
    · rw [hbytes, List.length_map, List.length_map]
    · rw [hbytes, hfields]

variable {discriminant : String}

mutual

theorem gives_read_iff : ∀ {schema : Schema} {layout : Layout},
    Compiles (fun _ => False) discriminant schema layout → ∀ {v : Value},
    layout.read.Gives v ↔ schema.Conforms discriminant v
  | _, _, .scalar type, _ => gives_scalar_iff type
  | _, _, .extension _ he, _ => he.elim
  | _, _, .enum h, v => by
    rw [Conforms]
    exact exact_readLabel.gives_map_iff.trans (by simp only [gives_readLabel_iff h])
  | _, _, .numberEnum h, v => by
    rw [Conforms]
    exact exact_readLabel.gives_map_iff.trans (by simp only [gives_readLabel_iff h])
  | _, _, .bitmask h, v => by
    have hfew : (flagNames _).length ≤ 7 := (length_flagNames h).trans_le h.few
    exact gives_readFlags_iff (flagNames_nodup h) hfew
  | _, _, .optional _ h, v => by
    rw [Conforms, ← gives_read_iff h]
    simp only [Gives, yields_read_optional_iff (exact_read h)]
    constructor
    · rintro ⟨_, ⟨-, hnull⟩ | ⟨rest, -, hinner⟩⟩
      · exact Or.inl hnull
      · exact Or.inr ⟨rest, hinner⟩
    · rintro (hnull | ⟨rest, hinner⟩)
      · exact ⟨_, Or.inl ⟨rfl, hnull⟩⟩
      · exact ⟨_, Or.inr ⟨rest, rfl, hinner⟩⟩
  | _, _, .array h, v => by
    simp only [Conforms, ← gives_read_iff h, ← exists_yieldsEach_iff]
    simp only [Gives, yields_read_array_iff (exact_read h)]
    constructor
    · rintro ⟨_, items, rest, rfl, hlimit, -, heach⟩
      exact ⟨items, rfl, hlimit, rest, heach⟩
    · rintro ⟨items, rfl, hlimit, rest, heach⟩
      exact ⟨_, items, rest, rfl, hlimit, rfl, heach⟩
  | _, _, .union _ hmany _ h, v => by
    simp only [Conforms, ← yieldsVariant_iff h]
    simp only [Gives, yields_read_union_iff (exact_readVariant h), yields_readVariant_iff h]
    constructor
    · rintro ⟨_, index, rest, -, key, variant, fields, hget, rfl, hfields⟩
      exact ⟨key.tag, fields, rfl, index.toNat, key, variant, rest, hget, rfl, hfields⟩
    · rintro ⟨_, fields, rfl, place, key, variant, rest, hget, rfl, hfields⟩
      have hplace : (UInt8.ofNat place).toNat = place := by
        apply UInt8.toNat_ofNat_of_lt'
        have hlt := (List.getElem?_eq_some_iff.mp hget).1
        rw [h.length_eq] at hlt
        exact Nat.lt_of_lt_of_le hlt hmany
      exact ⟨_, UInt8.ofNat place, rest, rfl, key, variant, fields, hplace.symm ▸ hget, rfl, hfields⟩
  | _, _, .record hnames h, v => by
    simp only [Conforms, ← yieldsFields_iff h]
    simp only [Gives, yields_read_record_iff h hnames]
    exact ⟨fun ⟨held, fields, hv, hf⟩ => ⟨fields, hv, held, hf⟩,
      fun ⟨fields, hv, held, hf⟩ => ⟨held, fields, hv, hf⟩⟩

theorem yieldsFields_iff : ∀ {schemas : List (String × Schema)} {layouts : List (String × Layout)},
    CompilesFields (fun _ => False) discriminant schemas layouts →
    ∀ {fields : List (String × Value)},
    (∃ held, YieldsFields layouts fields held) ↔ FieldsConform discriminant schemas fields
  | _, _, .nil, [] => iff_of_true ⟨[], rfl⟩ rfl
  | _, _, .nil, _ :: _ => iff_of_false (fun ⟨_, hfalse⟩ => hfalse) (fun hnil => nomatch hnil)
  | _, _, .cons _ _, [] => iff_of_false (fun ⟨_, hfalse⟩ => hfalse) (fun ⟨_, _, hnil, _⟩ => nomatch hnil)
  | _, _, .cons h hs, (name, v) :: fields => by
    rw [FieldsConform]
    constructor
    · rintro ⟨_, rfl, first, second, -, hfirst, hsecond⟩
      exact ⟨v, fields, rfl, (gives_read_iff h).mp ⟨first, hfirst⟩,
        (yieldsFields_iff hs).mp ⟨second, hsecond⟩⟩
    · rintro ⟨_, _, heq, hv, hfields⟩
      cases heq
      obtain ⟨first, hfirst⟩ := (gives_read_iff h).mpr hv
      obtain ⟨second, hsecond⟩ := (yieldsFields_iff hs).mpr hfields
      exact ⟨first ++ second, rfl, first, second, rfl, hfirst, hsecond⟩

theorem yieldsVariant_iff : ∀ {variants : List (String × List (String × Schema))}
    {layouts : List (VariantKey × List (String × Layout))},
    CompilesVariants (fun _ => False) discriminant variants layouts →
    ∀ {tag : String} {fields : List (String × Value)},
    (∃ (place : Nat) (key : VariantKey) (variant : List (String × Layout)) (held : List UInt8),
      layouts[place]? = some (key, variant) ∧ key.tag = tag ∧ YieldsFields variant fields held) ↔
      VariantConforms discriminant variants tag fields
  | _, _, .nil, _, _ => iff_of_false (fun ⟨_, _, _, _, hget, _⟩ => nomatch hget) id
  | _, _, .cons _ h hs, tag, fields => by
    rw [VariantConforms, ← yieldsFields_iff h, ← yieldsVariant_iff hs]
    constructor
    · rintro ⟨_ | place, key, variant, held, hget, rfl, hfields⟩
      · cases hget
        exact Or.inl ⟨rfl, held, hfields⟩
      · exact Or.inr ⟨place, key, variant, held, hget, rfl, hfields⟩
    · rintro (⟨rfl, held, hfields⟩ | ⟨place, key, variant, held, hget, rfl, hfields⟩)
      · exact ⟨0, _, _, held, rfl, rfl, hfields⟩
      · exact ⟨place + 1, key, variant, held, hget, rfl, hfields⟩

end

end Layout

namespace Codec

variable {types : Extensions} {discriminant : String} {schema : Schema} {c : Codec}

/-- Decoding gives exactly the values of the schema. -/
theorem exists_decode_iff_conforms (h : ofSchema types discriminant schema = .ok c) (hplain : c.IsPlain)
    (v : Value) : (∃ bytes, c.decode bytes = .ok v) ↔ schema.Conforms discriminant v := by
  have hc : Compiles (fun _ => False) discriminant schema c.layout := hplain.compiles h
  simp only [decode_eq_ok_iff hc]
  exact Layout.gives_read_iff hc

private def panel : Schema :=
  .record [("mode", .optional (.enum [("auto", 7), ("manual", 2)])),
    ("shape", .union [("dot", []), ("bar", [("width", .scalar .uint8)])])]

private def panelCodec : Codec :=
  .ofLayout ∅ panel (.record [("mode", .optional (.enum (.ofList [("auto", 7), ("manual", 2)]))),
    ("shape", .union "type" [(⟨"dot", 0⟩, []), (⟨"bar", 1⟩, [("width", .scalar .uint8)])]
      [("dot", 0), ("bar", 1)])])

private def bar : Value := .object [("type", .string "bar"), ("width", .u8 3)]

/-- The fields in the order of their declarations are decoded from some bytes, in another order from
none. -/
theorem exists_decode_iff_conforms_panel :
    ofSchema ∅ "type" panel = .ok panelCodec ∧ panelCodec.IsPlain ∧
      (∃ bytes, panelCodec.decode bytes = .ok (.object [("mode", .null), ("shape", bar)])) ∧
      ¬∃ bytes, panelCodec.decode bytes = .ok (.object [("shape", bar), ("mode", .null)]) := by
  have hcodec : ofSchema ∅ "type" panel = .ok panelCodec := rfl
  have hplain : panelCodec.IsPlain := isPlain_of_empty hcodec
  refine ⟨hcodec, hplain, (exists_decode_iff_conforms hcodec hplain _).mpr ?_, ?_⟩
  · simp [panel, bar, Schema.Conforms, Schema.FieldsConform, Schema.VariantConforms, Scalar.Holds]
  · rw [exists_decode_iff_conforms hcodec hplain]
    simp [panel, Schema.Conforms, Schema.FieldsConform]

end Codec

end WireSchema
