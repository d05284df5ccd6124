import WireSchema.Proofs.Format
import WireSchema.Proofs.Rationals
import WireSchema.Value.Json

/-! A document has no widths, so most numbers come back from it as others than they went in. Every view
that encoding takes of a value is the view of what comes back, unless a float is not finite. -/

namespace WireSchema

namespace Value

def viaJson (v : Value) : Value := ofJson (Json.ofValue v)

def fieldsViaJson (fields : List (String × Value)) : List (String × Value) :=
  fields.map fun f => (f.1, f.2.viaJson)

theorem viaJson_array (items : List Value) : (array items).viaJson = array (items.map viaJson) := by
  simp only [viaJson, Json.ofValue, ofJson, array.injEq]
  induction items with
  | nil => rfl
  | cons v rest ih => rw [Json.ofItems, ofItems, ih, List.map_cons, viaJson]

theorem viaJson_object (fields : List (String × Value)) :
    (object fields).viaJson = object (fieldsViaJson fields) := by
  simp only [viaJson, Json.ofValue, ofJson, object.injEq]
  induction fields with
  | nil => rfl
  | cons f rest ih => rw [Json.ofFields, ofMembers, ih, fieldsViaJson, fieldsViaJson, List.map_cons, viaJson]

theorem viaJson_f64 {x : Binary64} (h : x.isFinite = true) : (f64 x).viaJson = f64 x := by
  rw [viaJson, Json.ofValue, Json.ofBinary64, if_pos h, ofJson]

theorem viaJson_f32 {x : Binary32} (h : x.isFinite = true) : (f32 x).viaJson = f64 x.toBinary64 := by
  rw [viaJson, Json.ofValue, Json.ofBinary64, x.isFinite_toBinary64, if_pos h, ofJson]

theorem viaJson_eq_ofInt {v : Value} {n : Int} (h : v.toInt? = some n) : v.viaJson = ofInt n := by
  cases v <;> cases h <;> rfl

theorem toInt?_viaJson {v : Value} {n : Int} (h : v.toInt? = some n) : v.viaJson.toInt? = some n := by
  obtain ⟨hlow, hhigh⟩ := toInt?_bounds h
  rw [viaJson_eq_ofInt h, ofInt]
  split
  · rw [toInt?, Int32.toInt_ofInt_of_le hlow (by omega)]
  · have hnat : n.toNat % 2 ^ 32 = n.toNat := Nat.mod_eq_of_lt (by omega)
    rw [if_pos (by omega), toInt?, UInt32.toNat_ofNat', hnat, Int.toNat_of_nonneg (by omega)]

/-- Two values that encoding cannot tell apart at their roots, the second having come back. -/
structure Alike (v w : Value) : Prop where
  isNull : w.isNull = v.isNull
  toInt? : w.toInt? = v.toInt?
  toBinary64? : w.toBinary64? = v.toBinary64?
  toBool? : w.toBool? = v.toBool?
  toString? : w.toString? = v.toString?
  items? : w.items? = v.items?.map (List.map viaJson)
  fields? : w.fields? = v.fields?.map fieldsViaJson

theorem alike_of_toInt? {v w : Value} {n : Int} (hv : v.toInt? = some n) (hw : w.toInt? = some n) :
    Alike v w := by
  have hviews : ∀ u : Value, u.toInt? = some n → u.isNull = false ∧
      u.toBinary64? = some (Binary64.ofInt n) ∧ u.toBool? = none ∧ u.toString? = none ∧
      u.items? = none ∧ u.fields? = none := by
    intro u hu
    cases u <;> cases hu <;> exact ⟨rfl, rfl, rfl, rfl, rfl, rfl⟩
  obtain ⟨hnull, hfloat, hbool, htext, hitems, hfields⟩ := hviews v hv
  obtain ⟨hnull', hfloat', hbool', htext', hitems', hfields'⟩ := hviews w hw
  constructor <;> simp only [*, Option.map_none]

theorem alike_viaJson {v : Value} (h : v.isFinite = true) : Alike v v.viaJson := by
  cases v with
  | null | bool | string => exact ⟨rfl, rfl, rfl, rfl, rfl, rfl, rfl⟩
  | u8 | u16 | u32 | i8 | i16 | i32 => exact alike_of_toInt? rfl (toInt?_viaJson rfl)
  | f32 x =>
    rw [viaJson_f32 h]
    exact ⟨rfl, rfl, rfl, rfl, rfl, rfl, rfl⟩
  | f64 x =>
    rw [viaJson_f64 h]
    exact ⟨rfl, rfl, rfl, rfl, rfl, rfl, rfl⟩
  | array items =>
    rw [viaJson_array]
    exact ⟨rfl, rfl, rfl, rfl, rfl, rfl, rfl⟩
  | object fields =>
    rw [viaJson_object]
    exact ⟨rfl, rfl, rfl, rfl, rfl, rfl, rfl⟩

theorem Alike.integer? {v w : Value} (h : Alike v w) : w.integer? = v.integer? := by
  rw [Value.integer?, Value.integer?, h.toInt?, h.toBinary64?]

theorem lookup_fieldsViaJson (fields : List (String × Value)) (name : String) :
    (fieldsViaJson fields).lookup name = (fields.lookup name).map viaJson :=
  Assoc.lookup_map_snd viaJson fields name

theorem field_fieldsViaJson (fields : List (String × Value)) (name : String) :
    field (fieldsViaJson fields) name = (field fields name).viaJson := by
  rw [field, field, lookup_fieldsViaJson]
  cases fields.lookup name <;> rfl

theorem flag?_eq (fields : List (String × Value)) (name : String) : flag? fields name =
    if (field fields name).isNull then some false else (field fields name).toBool? := by
  rw [flag?]
  cases field fields name <;> rfl

theorem flag?_fieldsViaJson {fields : List (String × Value)} (h : (object fields).isFinite = true)
    (name : String) : flag? (fieldsViaJson fields) name = flag? fields name := by
  have halike := alike_viaJson (isFinite_field h name)
  rw [flag?_eq, flag?_eq, field_fieldsViaJson, halike.isNull, halike.toBool?]

theorem bind_fields?_viaJson {α : Type} {part : List (String × Value) → Option α} {v : Value}
    (h : v.isFinite = true) (hpart : ∀ fields, (object fields).isFinite = true →
      part (fieldsViaJson fields) = part fields) :
    v.viaJson.fields?.bind part = v.fields?.bind part := by
  rw [(alike_viaJson h).fields?, Option.bind_map]
  apply Option.bind_congr
  intro fields hfields
  obtain rfl := fields?_eq_some_iff.mp hfields
  exact hpart fields h

end Value

namespace Scalar

theorem bytes?_of_alike (type : Scalar) {v w : Value} (h : v.Alike w) :
    type.bytes? w = type.bytes? v := by
  cases type <;>
    simp only [bytes?, integerBytes?, h.integer?, h.toBinary64?, h.toBool?, h.toString?]

end Scalar

namespace Schema

open Value

variable {discriminant : String}

mutual

/-- What comes back from a document has the bytes of what went in. -/
theorem bytes?_viaJson : ∀ (schema : Schema) {v : Value}, v.isFinite = true →
    schema.bytes? discriminant v.viaJson = schema.bytes? discriminant v
  | .scalar type, v, hv => type.bytes?_of_alike (alike_viaJson hv)
  | .custom _, _, _ => rfl
  | .enum labels, v, hv => by simp only [bytes?, (alike_viaJson hv).toString?]
  | .numberEnum labels, v, hv => by simp only [bytes?, (alike_viaJson hv).integer?]
  | .bitmask flags, v, hv => bind_fields?_viaJson hv fun fields hfields => by
    have hflags : flag? (fieldsViaJson fields) = flag? fields :=
      funext (flag?_fieldsViaJson hfields)
    rw [hflags]
  | .optional inner, v, hv => by
    simp only [bytes?, (alike_viaJson hv).isNull, bytes?_viaJson inner hv]
  | .array count element, v, hv => by
    simp only [bytes?, (alike_viaJson hv).items?, Option.bind_eq_bind, Option.bind_map]
    apply Option.bind_congr
    intro items hitems
    obtain rfl := items?_eq_some_iff.mp hitems
    have hparts := mapM_map_of_forall fun v hmem =>
      bytes?_viaJson element (isFinite_array_iff.mp hv v hmem)
    rw [Function.comp_apply, List.length_map, hparts]
  | .union variants, v, hv => bind_fields?_viaJson hv fun fields hfields => by
    simp only [lookup_fieldsViaJson, Option.bind_eq_bind, Option.bind_map]
    apply Option.bind_congr
    intro tag htag
    simp only [Function.comp_apply, (alike_viaJson (isFinite_of_lookup hfields htag)).toString?,
      variantBytes?_viaJson variants 0 _ hfields]
  | .record schemas, v, hv =>
    bind_fields?_viaJson hv fun _ hfields => fieldsBytes?_viaJson schemas hfields

theorem fieldsBytes?_viaJson : ∀ (schemas : List (String × Schema)) {fields : List (String × Value)},
    (Value.object fields).isFinite = true →
    fieldsBytes? discriminant schemas (fieldsViaJson fields) = fieldsBytes? discriminant schemas fields
  | [], _, _ => rfl
  | (name, schema) :: rest, fields, hv => by
    rw [fieldsBytes?, fieldsBytes?, field_fieldsViaJson, bytes?_viaJson schema (isFinite_field hv name),
      fieldsBytes?_viaJson rest hv]

theorem variantBytes?_viaJson : ∀ (variants : List (String × List (String × Schema))) (place : Nat)
    (tag : String) {fields : List (String × Value)}, (Value.object fields).isFinite = true →
    variantBytes? discriminant variants place tag (fieldsViaJson fields) =
      variantBytes? discriminant variants place tag fields
  | [], _, _, _, _ => rfl
  | (_, schemas) :: rest, place, tag, fields, hv => by
    rw [variantBytes?, variantBytes?, fieldsBytes?_viaJson schemas hv,
      variantBytes?_viaJson rest (place + 1) tag hv]

end

end Schema

namespace Codec

variable {types : Extensions} {discriminant : String} {schema : Schema} {c : Codec}

/-- A value is encoded as what comes back from its document is, and refused if that is refused. -/
theorem encode_viaJson_eq_ok_iff (h : ofSchema types discriminant schema = .ok c) (hplain : c.IsPlain)
    {v : Value} (hv : v.isFinite = true) (out : List UInt8) :
    c.encode v = .ok out ↔ c.encode (Value.ofJson (Json.ofValue v)) = .ok out := by
  have hc : Compiles (fun _ => False) discriminant schema c.layout := hplain.compiles h
  rw [encode_eq_ok_iff (hplain.compiles h), encode_eq_ok_iff (hplain.compiles h),
    Layout.output?_write hc, Layout.output?_write hc, ← Value.viaJson, schema.bytes?_viaJson hv]

private def gauge : Schema :=
  .record [("at", .scalar .float64), ("gain", .scalar .float32), ("level", .scalar .int8),
    ("mark", .optional (.union [("none", []), ("code", [("n", .numberEnum [(4000000, 7)])])]))]

private def gaugeCodec : Codec :=
  .ofLayout ∅ gauge (.record [("at", .scalar .float64), ("gain", .scalar .float32),
    ("level", .scalar .int8), ("mark", .optional (.union "type"
      [(⟨"none", 0⟩, []), (⟨"code", 1⟩, [("n", .numberEnum (.ofList [(4000000, 7)]))])]
      [("none", 0), ("code", 1)]))])

/-- A negative zero, a float of 32 bits, an integral float for an integer and a wide label. -/
private def measurement : Value :=
  .object [("mark", .object [("n", .u32 4000000), ("type", .string "code")]),
    ("level", .f64 ⟨0xC014000000000000⟩), ("gain", .f32 ⟨0x3DCCCCCD⟩), ("at", .f64 ⟨0x8000000000000000⟩)]

theorem encode_viaJson_eq_ok_iff_measurement :
    ofSchema ∅ "type" gauge = .ok gaugeCodec ∧ gaugeCodec.IsPlain ∧ measurement.isFinite = true ∧
      gaugeCodec.encode measurement =
        .ok [128, 0, 0, 0, 0, 0, 0, 0, 0x3D, 0xCC, 0xCC, 0xCD, 251, 1, 1, 7] ∧
      gaugeCodec.encode (Value.ofJson (Json.ofValue measurement)) =
        .ok [128, 0, 0, 0, 0, 0, 0, 0, 0x3D, 0xCC, 0xCC, 0xCD, 251, 1, 1, 7] := by
  have hcodec : ofSchema ∅ "type" gauge = .ok gaugeCodec := rfl
  have hplain : gaugeCodec.IsPlain := isPlain_of_empty hcodec
  have hencode : gaugeCodec.encode measurement =
    .ok [128, 0, 0, 0, 0, 0, 0, 0, 0x3D, 0xCC, 0xCC, 0xCD, 251, 1, 1, 7] := rfl
  exact ⟨hcodec, hplain, rfl, hencode,
    (encode_viaJson_eq_ok_iff hcodec hplain rfl _).mp hencode⟩

end Codec

end WireSchema
