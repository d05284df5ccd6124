import WireSchema.Proofs.Canonical

/-! Many values have one encoding. What is decoded is the normal form of all of them, which is read off
the schema. -/

namespace WireSchema

open Bytes

namespace Schema

mutual

/-- The value with every number in the width of its type and every object with just the declared names,
in the order of the declarations. -/
def normal (discriminant : String) : Schema → Value → Value
  | .scalar type, v => type.normal v
  | .custom _, v => v
  | .enum _, v => v
  | .numberEnum _, v => v.integer?.elim v fun n => .i32 (Int32.ofInt n)
  | .bitmask flags, v => v.fields?.elim v fun fields =>
    .object ((flagNames flags).map fun name => (name, .bool ((Value.flag? fields name).getD false)))
  | .optional inner, v => if v.isNull then .null else normal discriminant inner v
  | .array _ element, v => v.items?.elim v fun items => .array (items.map (normal discriminant element))
  | .union variants, v => v.fields?.elim v fun fields =>
    match (fields.lookup discriminant).bind Value.toString? with
    | some tag => .object ((discriminant, .string tag) :: normalVariant discriminant variants tag fields)
    | none => v
  | .record schemas, v => v.fields?.elim v fun fields =>
    .object (normalFields discriminant schemas fields)

def normalFields (discriminant : String) :
    List (String × Schema) → List (String × Value) → List (String × Value)
  | [], _ => []
  | (name, schema) :: rest, fields =>
    (name, normal discriminant schema (Value.field fields name)) ::
      normalFields discriminant rest fields

def normalVariant (discriminant : String) : List (String × List (String × Schema)) → String →
    List (String × Value) → List (String × Value)
  | [], _, _ => []
  | (tag, schemas) :: rest, wanted, fields =>
    if tag = wanted then normalFields discriminant schemas fields
    else normalVariant discriminant rest wanted fields

end

theorem normal_union {discriminant : String} {variants : List (String × List (String × Schema))}
    {fields : List (String × Value)} {tag : String}
    (h : fields.lookup discriminant = some (.string tag)) :
    normal discriminant (.union variants) (.object fields) =
      .object ((discriminant, .string tag) :: normalVariant discriminant variants tag fields) := by
  rw [normal, Value.fields?, Option.elim_some, h]
  rfl

end Schema

namespace Layout

open Schema Read

section

variable {discriminant : String}

theorem zip_flags {names : List String} {fields : List (String × Value)} {set : List Bool}
    (h : names.mapM (Value.flag? fields) = some set) :
    names.zip (set.map Value.bool) =
      names.map fun name => (name, .bool ((Value.flag? fields name).getD false)) := by
  have hpairs := mapM_eq_some_iff_forall₂.mp h
  clear h
  induction hpairs with
  | nil => rfl
  | cons hfirst _ ih =>
    rw [List.map_cons, List.zip_cons_cons, List.map_cons, ih, hfirst]
    rfl

theorem yieldsEach_of_mapM {element : Read Value} {bytesOf : Value → Option (List UInt8)}
    {normalOf : Value → Value}
    (h : ∀ v out, bytesOf v = some out → element.Yields out (normalOf v))
    {items : List Value} {parts : List (List UInt8)} (hparts : items.mapM bytesOf = some parts) :
    element.YieldsEach (items.map normalOf) parts.flatten := by
  have hpairs := mapM_eq_some_iff_forall₂.mp hparts
  clear hparts
  induction hpairs with
  | nil => rfl
  | cons hfirst _ ih => exact ⟨_, _, rfl, h _ _ hfirst, ih⟩

mutual

theorem yields_of_bytes? : ∀ {schema : Schema} {layout : Layout},
    Compiles (fun _ => False) discriminant schema layout → ∀ {v : Value} {out : List UInt8},
    schema.bytes? discriminant v = some out → layout.read.Yields out (schema.normal discriminant v)
  | _, _, .scalar type, _, _, hout => type.yields_of_bytes? hout
  | _, _, .extension _ he, _, _, _ => he.elim
  | .enum labels, _, .enum h, v, out, hout => by
    rw [← output?_write (.enum h), output?_write_enum] at hout
    obtain ⟨label, hlabel, hout⟩ := Option.bind_eq_some_iff.mp hout
    obtain ⟨byte, hbyte, rfl⟩ := Option.map_eq_some_iff.mp hout
    obtain rfl := Value.toString?_eq_some_iff.mp hlabel
    refine exact_readLabel.map_yields_iff.mpr ⟨label, ?_, rfl⟩
    exact yields_readLabel_iff.mpr ⟨byte, rfl, (lookup_labels_labelTable h).mpr hbyte⟩
  | .numberEnum labels, _, .numberEnum h, v, out, hout => by
    rw [← output?_write (.numberEnum h), output?_write_numberEnum, Value.integral?_eq] at hout
    obtain ⟨m, hm, hout⟩ := Option.bind_eq_some_iff.mp hout
    obtain ⟨n, hn, rfl⟩ := Option.map_eq_some_iff.mp hm
    obtain ⟨byte, hbyte, rfl⟩ := Option.map_eq_some_iff.mp hout
    rw [ordinalOfInt?_clampInt64] at hbyte
    obtain ⟨-, hlookup⟩ := Option.ite_none_right_eq_some.mp hbyte
    rw [normal, hn]
    refine exact_readLabel.map_yields_iff.mpr ⟨Int32.ofInt n, ?_, rfl⟩
    exact yields_readLabel_iff.mpr ⟨byte, rfl, (lookup_labels_labelTable h).mpr hlookup⟩
  | .bitmask flags, _, .bitmask h, v, out, hout => by
    obtain ⟨fields, set, rfl, hset, rfl⟩ := bytes?_bitmask_iff.mp hout
    have hlength : set.length = (flagNames flags).length :=
      (mapM_eq_some_iff_forall₂.mp hset).length_eq.symm
    have hfew : set.length ≤ 7 := by
      rw [hlength, length_flagNames h]
      exact h.few
    refine (yields_readFlags_iff (flagNames_nodup h)).mpr ⟨_, rfl, ?_, ?_⟩
    · rw [unpackFlags_packFlags hfew, hlength]
    · rw [unpackFlags_packFlags hfew, zip_flags hset, normal, Value.fields?, Option.elim_some]
  | .optional schema, .optional layout, .optional _ h, v, out, hout => by
    rw [yields_read_optional_iff (exact_read h), normal]
    rcases bytes?_optional_iff.mp hout with ⟨hnull, rfl⟩ | ⟨hnull, rest, hinner, rfl⟩
    · rw [if_pos hnull]
      exact Or.inl ⟨rfl, rfl⟩
    · rw [if_neg hnull]
      exact Or.inr ⟨rest, rfl, yields_of_bytes? h hinner⟩
  | .array count schema, .array _ layout, .array h, v, out, hout => by
    obtain ⟨items, parts, rfl, hlimit, hparts, rfl⟩ := bytes?_array_iff.mp hout
    rw [yields_read_array_iff (exact_read h), normal, Value.items?, Option.elim_some]
    refine ⟨_, parts.flatten, rfl, by rwa [List.length_map], by rw [List.length_map], ?_⟩
    exact yieldsEach_of_mapM (fun _ _ => yields_of_bytes? h) hparts
  | .union variants, .union _ layouts _, .union _ hmany _ h, v, out, hout => by
    obtain ⟨fields, tag, rfl, hlookup, hout⟩ := bytes?_union_iff.mp hout
    obtain ⟨place, key, variant, rest, hplace, hget, rfl, rfl, hvariant⟩ :=
      yieldsVariant_of_bytes? h hout
    have hindex : (UInt8.ofNat place).toNat = place := by
      apply UInt8.toNat_ofNat_of_lt'
      rw [h.length_eq] at hplace
      exact Nat.lt_of_lt_of_le hplace hmany
    rw [yields_read_union_iff (exact_readVariant h), normal_union hlookup]
    refine ⟨UInt8.ofNat place, rest, ?_, (yields_readVariant_iff h).mpr ?_⟩
    · rw [Nat.zero_add, bigEndian_one_ofNat]
      rfl
    · rw [hindex]
      exact ⟨key, variant, _, hget, rfl, hvariant⟩
  | .record schemas, .record layouts, .record hnames h, v, out, hout => by
    obtain ⟨fields, rfl, hout⟩ := bytes?_record_iff.mp hout
    rw [yields_read_record_iff h hnames, normal, Value.fields?, Option.elim_some]
    exact ⟨_, rfl, yieldsFields_of_bytes? h hout⟩

theorem yieldsFields_of_bytes? : ∀ {schemas : List (String × Schema)}
    {layouts : List (String × Layout)},
    CompilesFields (fun _ => False) discriminant schemas layouts →
    ∀ {fields : List (String × Value)} {out : List UInt8},
    fieldsBytes? discriminant schemas fields = some out →
    YieldsFields layouts (normalFields discriminant schemas fields) out
  | _, _, .nil, _, _, hout => by
    cases hout
    rfl
  | _, _, .cons h hs, fields, out, hout => by
    obtain ⟨first, others, hfirst, hothers, rfl⟩ := fieldsBytes?_cons_iff.mp hout
    exact ⟨rfl, first, others, rfl, yields_of_bytes? h hfirst, yieldsFields_of_bytes? hs hothers⟩

theorem yieldsVariant_of_bytes? : ∀ {variants : List (String × List (String × Schema))}
    {layouts : List (VariantKey × List (String × Layout))},
    CompilesVariants (fun _ => False) discriminant variants layouts →
    ∀ {k : Nat} {tag : String} {fields : List (String × Value)} {out : List UInt8},
    variantBytes? discriminant variants k tag fields = some out → ∃ place key variant rest,
      place < layouts.length ∧ layouts[place]? = some (key, variant) ∧ key.tag = tag ∧
      out = bigEndian 1 (k + place) ++ rest ∧
      YieldsFields variant (normalVariant discriminant variants tag fields) rest
  | _, _, .nil, _, _, _, _, hout => nomatch hout
  | (t, schemas) :: variants, (_, layouts) :: others, .cons _ h hs, k, tag, fields, out, hout => by
    rw [normalVariant]
    rcases variantBytes?_cons_iff.mp hout with ⟨rfl, rest, hrest, rfl⟩ | ⟨htag, hout⟩
    · rw [if_pos rfl]
      exact ⟨0, _, layouts, rest, Nat.succ_pos _, rfl, rfl, rfl, yieldsFields_of_bytes? h hrest⟩
    · obtain ⟨place, key, variant, rest, hplace, hget, hkey, rfl, hfields⟩ :=
        yieldsVariant_of_bytes? hs hout
      rw [if_neg htag]
      refine ⟨place + 1, key, variant, rest, Nat.succ_lt_succ hplace, hget, hkey, ?_, hfields⟩
      rw [Nat.add_right_comm, Nat.add_assoc]

end

mutual

theorem bytes?_normal : ∀ {schema : Schema} {layout : Layout},
    Compiles (fun _ => False) discriminant schema layout → ∀ {v : Value} {out : List UInt8},
    schema.bytes? discriminant v = some out →
    schema.bytes? discriminant (schema.normal discriminant v) = some out
  | _, _, .scalar _, _, _, hout => Scalar.bytes?_normal hout
  | _, _, .extension _ he, _, _, _ => he.elim
  | _, _, .enum _, _, _, hout => hout
  | .numberEnum labels, _, .numberEnum h, v, out, hout => by
    obtain ⟨n, label, hn, hlabel, rfl⟩ := bytes?_numberEnum_iff.mp hout
    have heq : label.1.toInt = n := by simpa using List.find?_some hlabel
    have hinteger : (Value.i32 (Int32.ofInt n)).integer? = some n := by
      rw [← heq, label.1.ofInt_toInt]
      rfl
    rw [normal, hn, Option.elim_some]
    exact bytes?_numberEnum_iff.mpr ⟨n, label, hinteger, hlabel, rfl⟩
  | .bitmask flags, _, .bitmask h, v, out, hout => by
    obtain ⟨fields, set, rfl, hset, rfl⟩ := bytes?_bitmask_iff.mp hout
    have hlength : set.length = (flagNames flags).length :=
      (mapM_eq_some_iff_forall₂.mp hset).length_eq.symm
    rw [normal, Value.fields?, Option.elim_some, ← zip_flags hset]
    exact bytes?_bitmask_iff.mpr ⟨_, set, rfl, mapM_flag?_zip (flagNames_nodup h) hlength, rfl⟩
  | .optional schema, .optional layout, .optional hopt h, v, out, hout => by
    rw [normal]
    rcases bytes?_optional_iff.mp hout with ⟨hnull, rfl⟩ | ⟨hnull, rest, hinner, rfl⟩
    · rw [if_pos hnull]
      rfl
    · have hsome := not_isNull_of_yields h hopt (yields_of_bytes? h hinner)
      rw [if_neg hnull]
      exact bytes?_optional_iff.mpr (Or.inr ⟨hsome, rest, bytes?_normal h hinner, rfl⟩)
  | .array count schema, .array _ layout, .array h, v, out, hout => by
    obtain ⟨items, parts, rfl, hlimit, hparts, rfl⟩ := bytes?_array_iff.mp hout
    have hnormal : (items.map (normal discriminant schema)).mapM (bytes? discriminant schema) =
        some parts := by
      rw [mapM_eq_some_iff_forall₂, List.forall₂_map_left_iff]
      exact (mapM_eq_some_iff_forall₂.mp hparts).imp fun _ _ => bytes?_normal h
    rw [normal, Value.items?, Option.elim_some, bytes?_array_iff]
    exact ⟨_, parts, rfl, by rwa [List.length_map], hnormal, by rw [List.length_map]⟩
  | .union variants, .union _ layouts _, .union _ _ _ h, v, out, hout => by
    obtain ⟨fields, tag, rfl, hlookup, hout⟩ := bytes?_union_iff.mp hout
    rw [normal_union hlookup, bytes?_union_iff]
    exact ⟨_, tag, rfl, List.lookup_cons_self, variantBytes?_normal h hout⟩
  | .record schemas, .record layouts, .record hnames h, v, out, hout => by
    obtain ⟨fields, rfl, hout⟩ := bytes?_record_iff.mp hout
    exact bytes?_record_iff.mpr ⟨_, rfl, fieldsBytes?_normal h [] hnames hout⟩

theorem fieldsBytes?_normal : ∀ {schemas : List (String × Schema)}
    {layouts : List (String × Layout)},
    CompilesFields (fun _ => False) discriminant schemas layouts →
    ∀ (front : List (String × Value)) {fields : List (String × Value)} {out : List UInt8},
    (front.map Prod.fst ++ schemas.map Prod.fst).Nodup →
    fieldsBytes? discriminant schemas fields = some out →
    fieldsBytes? discriminant schemas (front ++ normalFields discriminant schemas fields) = some out
  | _, _, .nil, _, _, _, _, hout => hout
  | (name, schema) :: schemas, _, .cons h hs, front, fields, out, hnames, hout => by
    obtain ⟨first, others, hfirst, hothers, rfl⟩ := fieldsBytes?_cons_iff.mp hout
    have hrest := fieldsBytes?_normal hs _ (nodup_front hnames
      (normal discriminant schema (Value.field fields name))) hothers
    rw [List.append_assoc, List.singleton_append] at hrest
    refine fieldsBytes?_cons_iff.mpr ⟨first, others, ?_, hrest, rfl⟩
    rw [normalFields, field_front hnames, bytes?_normal h hfirst]

theorem variantBytes?_normal : ∀ {variants : List (String × List (String × Schema))}
    {layouts : List (VariantKey × List (String × Layout))},
    CompilesVariants (fun _ => False) discriminant variants layouts →
    ∀ {k : Nat} {tag : String} {fields : List (String × Value)} {out : List UInt8},
    variantBytes? discriminant variants k tag fields = some out →
    variantBytes? discriminant variants k tag ((discriminant, .string tag) ::
      normalVariant discriminant variants tag fields) = some out
  | _, _, .nil, _, _, _, _, hout => nomatch hout
  | (t, schemas) :: variants, _, .cons hnames h hs, k, tag, fields, out, hout => by
    rw [normalVariant, variantBytes?_cons_iff]
    rcases variantBytes?_cons_iff.mp hout with ⟨htag, rest, hrest, rfl⟩ | ⟨htag, hout⟩
    · rw [if_pos htag]
      exact Or.inl ⟨htag, rest, fieldsBytes?_normal h [(discriminant, .string tag)] hnames hrest, rfl⟩
    · rw [if_neg htag]
      exact Or.inr ⟨htag, variantBytes?_normal hs hout⟩

end

mutual

/-- A value that is read is its own normal form, unless it holds a NaN that narrowing makes quiet. -/
theorem normal_of_yields : ∀ {schema : Schema} {layout : Layout},
    Compiles (fun _ => False) discriminant schema layout → ∀ {v : Value} {held : List UInt8},
    layout.read.Yields held v →
    (∀ x, some (.float32, .f32 x) ∈ schema.leaves discriminant v → x.isSignalling = false) →
    schema.normal discriminant v = v
  | _, _, .scalar type, v, held, hv, hquiet => by
    apply type.normal_of_yields hv
    rintro x rfl rfl
    apply hquiet
    rw [leaves, List.mem_replicate]
    refine ⟨?_, rfl⟩
    rw [Scalar.bytes?, Value.toBinary64?, Option.map_some, Option.getD_some, length_bigEndian]
    decide
  | _, _, .extension _ he, _, _, _, _ => he.elim
  | _, _, .enum _, _, _, _, _ => rfl
  | .numberEnum labels, _, .numberEnum h, v, held, hv, _ => by
    obtain ⟨label, -, rfl⟩ := exact_readLabel.map_yields_iff.mp hv
    have hinteger : (Value.i32 label).integer? = some label.toInt := rfl
    rw [normal, hinteger, Option.elim_some, label.ofInt_toInt]
  | .bitmask flags, _, .bitmask h, v, held, hv, _ => by
    obtain ⟨byte, rfl, hlength, rfl⟩ := (yields_readFlags_iff (flagNames_nodup h)).mp hv
    rw [normal, Value.fields?, Option.elim_some,
      ← zip_flags (mapM_flag?_zip (flagNames_nodup h) hlength)]
  | .optional schema, .optional layout, .optional hopt h, v, held, hv, hquiet => by
    rcases (yields_read_optional_iff (exact_read h)).mp hv with ⟨rfl, rfl⟩ | ⟨rest, rfl, hinner⟩
    · rfl
    · have hnull := not_isNull_of_yields h hopt hinner
      rw [leaves, if_neg hnull] at hquiet
      rw [normal, if_neg hnull]
      exact normal_of_yields h hinner fun x hx => hquiet x (List.mem_cons_of_mem _ hx)
  | .array count schema, .array _ layout, .array h, v, held, hv, hquiet => by
    obtain ⟨items, rest, rfl, -, -, heach⟩ := (yields_read_array_iff (exact_read h)).mp hv
    have hitem : ∀ v ∈ items, normal discriminant schema v = v := by
      intro v hv
      obtain ⟨part, hpart⟩ := heach.exists_yields v hv
      refine normal_of_yields h hpart fun x hx => hquiet x ?_
      exact List.mem_append_right _ (List.mem_flatMap.mpr ⟨v, hv, hx⟩)
    exact congrArg Value.array ((List.map_congr_left hitem).trans (List.map_id' items))
  | .union variants, .union _ layouts _, .union _ _ htags h, v, held, hv, hquiet => by
    obtain ⟨index, rest, rfl, hvariant⟩ := (yields_read_union_iff (exact_readVariant h)).mp hv
    obtain ⟨key, variant, fields, hget, rfl, hfields⟩ := (yields_readVariant_iff h).mp hvariant
    have hlookup : ((discriminant, Value.string key.tag) :: fields).lookup discriminant =
        some (.string key.tag) := List.lookup_cons_self
    have hvariant := normalVariant_of_yields h htags hget hfields fun x hx => hquiet x <| by
      rw [leaves, Value.fields?, Option.getD_some, hlookup]
      exact List.mem_cons_of_mem _ hx
    rw [normal_union hlookup, hvariant]
  | .record schemas, .record layouts, .record hnames h, v, held, hv, hquiet => by
    obtain ⟨fields, rfl, hfields⟩ := (yields_read_record_iff h hnames).mp hv
    exact congrArg Value.object (normalFields_of_yields h [] hnames hfields hquiet)

theorem normalFields_of_yields : ∀ {schemas : List (String × Schema)}
    {layouts : List (String × Layout)},
    CompilesFields (fun _ => False) discriminant schemas layouts →
    ∀ (front : List (String × Value)) {fields : List (String × Value)} {held : List UInt8},
    (front.map Prod.fst ++ schemas.map Prod.fst).Nodup → YieldsFields layouts fields held →
    (∀ x, some (.float32, .f32 x) ∈ fieldsLeaves discriminant schemas (front ++ fields) →
      x.isSignalling = false) →
    normalFields discriminant schemas (front ++ fields) = fields
  | _, _, .nil, _, [], _, _, _, _ => rfl
  | _, _, .nil, _, _ :: _, _, _, hfields, _ => hfields.elim
  | _, _, .cons _ _, _, [], _, _, hfields, _ => hfields.elim
  | (name, schema) :: schemas, _, .cons h hs, front, (name', v) :: fields, held, hnames, hfields,
      hquiet => by
    obtain ⟨rfl, first, second, rfl, hfirst, hsecond⟩ := hfields
    rw [fieldsLeaves, field_front hnames] at hquiet
    have hv := normal_of_yields h hfirst fun x hx => hquiet x (List.mem_append_left _ hx)
    have hrest := normalFields_of_yields hs (front ++ [(name', v)]) (nodup_front hnames v) hsecond
    rw [List.append_assoc, List.singleton_append] at hrest
    rw [normalFields, field_front hnames, hv, hrest fun x hx => hquiet x (List.mem_append_right _ hx)]

theorem normalVariant_of_yields : ∀ {variants : List (String × List (String × Schema))}
    {layouts : List (VariantKey × List (String × Layout))},
    CompilesVariants (fun _ => False) discriminant variants layouts →
    ∀ {place : Nat} {key : VariantKey} {variant : List (String × Layout)}
      {fields : List (String × Value)} {held : List UInt8},
    (variants.map Prod.fst).Nodup → layouts[place]? = some (key, variant) →
    YieldsFields variant fields held →
    (∀ x, some (.float32, .f32 x) ∈ variantLeaves discriminant variants (some key.tag)
      ((discriminant, .string key.tag) :: fields) → x.isSignalling = false) →
    normalVariant discriminant variants key.tag ((discriminant, .string key.tag) :: fields) = fields
  | _, _, .nil, _, _, _, _, _, _, hget, _, _ => nomatch hget
  | (t, schemas) :: _, _, .cons hnames h _, 0, _, _, fields, held, _, hget, hfields, hquiet => by
    cases hget
    rw [variantLeaves, if_pos rfl] at hquiet
    rw [normalVariant, if_pos rfl]
    exact normalFields_of_yields h [(discriminant, .string t)] hnames hfields hquiet
  | (t, _) :: variants, (_, _) :: others, .cons _ _ hs, place + 1, key, variant, fields, held,
      htags, hget, hfields, hquiet => by
    rw [List.map_cons, List.nodup_cons] at htags
    have htag := hs.tag_ne htags.1 hget
    rw [variantLeaves, if_neg fun heq => htag (Option.some.inj heq)] at hquiet
    rw [normalVariant, if_neg htag]
    exact normalVariant_of_yields hs htags.2 hget hfields hquiet

end

end

end Layout

namespace Codec

variable {types : Extensions} {discriminant : String} {schema : Schema} {c : Codec}

/-- From the bytes of a value its normal form is decoded, which has the same bytes and is its own normal
form. A value that was decoded is its own normal form already, unless one of its leaves is a NaN that
narrowing makes quiet, and it comes back from its bytes. -/
theorem decode_encode_normal (h : ofSchema types discriminant schema = .ok c) (hplain : c.IsPlain) :
    (∀ v out, c.encode v = .ok out →
      c.decode out = .ok (schema.normal discriminant v) ∧
      schema.normal discriminant (schema.normal discriminant v) = schema.normal discriminant v ∧
      c.encode (schema.normal discriminant v) = .ok out) ∧
    ∀ bytes v, c.decode bytes = .ok v →
      (∀ x, some (.float32, .f32 x) ∈ schema.leaves discriminant v → x.isSignalling = false) →
      schema.normal discriminant v = v ∧ ∃ out, c.encode v = .ok out ∧ c.decode out = .ok v := by
  have hc : Compiles (fun _ => False) discriminant schema c.layout := hplain.compiles h
  have hencode : ∀ v out, c.encode v = .ok out ↔ schema.bytes? discriminant v = some out := by
    intro v out
    rw [encode_eq_ok_iff (hplain.compiles h), Layout.output?_write hc]
  simp only [hencode, decode_eq_ok_iff hc]
  constructor
  · intro v out hout
    have hread := Layout.yields_of_bytes? hc hout
    have hnormal := Layout.bytes?_normal hc hout
    -- The normal form has the same bytes, and nothing but one value is read from them.
    exact ⟨hread, (Layout.yields_of_bytes? hc hnormal).unique hread, hnormal⟩
  · intro bytes v hv hquiet
    have hnormal := Layout.normal_of_yields hc hv hquiet
    obtain ⟨out, hout, -⟩ := Layout.bytes?_of_yields hc hv
    have hread := Layout.yields_of_bytes? hc hout
    rw [hnormal] at hread
    exact ⟨hnormal, out, hout, hread⟩

private def reading : Codec := .ofLayout ∅ (.scalar .float32) (.scalar .float32)

/-- A signalling NaN is decoded, but its normal form and what comes back from its bytes are quiet. -/
theorem normal_signalling_ne :
    ofSchema ∅ "type" (.scalar .float32) = .ok reading ∧ reading.IsPlain ∧
      reading.decode [0x7F, 0x80, 0, 1] = .ok (.f32 ⟨0x7F800001⟩) ∧
      (Schema.scalar .float32).normal "type" (.f32 ⟨0x7F800001⟩) ≠ .f32 ⟨0x7F800001⟩ ∧
      reading.encode (.f32 ⟨0x7F800001⟩) = .ok [0x7F, 0xC0, 0, 1] := by
  refine ⟨rfl, rfl, rfl, fun h => ?_, rfl⟩
  have hbits := Value.f32.inj h
  revert hbits
  decide

private def order : Schema :=
  .record [("count", .scalar .uint16), ("note", .optional (.scalar .string)),
    ("kind", .enum [("draft", 3), ("final", 9)])]

private def orderCodec : Codec :=
  .ofLayout ∅ order (.record [("count", .scalar .uint16), ("note", .optional (.scalar .string)),
    ("kind", .enum (.ofList [("draft", 3), ("final", 9)]))])

/-- Fields in another order, in another width, left out or not declared. -/
theorem decode_encode_normal_order :
    ofSchema ∅ "type" order = .ok orderCodec ∧ orderCodec.IsPlain ∧
      orderCodec.encode (.object [("kind", .string "final"), ("extra", .null), ("count", .i8 5)]) =
        .ok [0, 5, 0, 9] ∧
      orderCodec.decode [0, 5, 0, 9] =
        .ok (.object [("count", .u16 5), ("note", .null), ("kind", .string "final")]) := by
  have hcodec : ofSchema ∅ "type" order = .ok orderCodec := rfl
  have hplain : orderCodec.IsPlain := isPlain_of_empty hcodec
  have hencode : orderCodec.encode (.object [("kind", .string "final"), ("extra", .null),
    ("count", .i8 5)]) = .ok [0, 5, 0, 9] := rfl
  exact ⟨hcodec, hplain, hencode, ((decode_encode_normal hcodec hplain).1 _ _ hencode).1⟩

end Codec

end WireSchema
