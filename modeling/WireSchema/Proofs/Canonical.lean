import WireSchema.Proofs.Format
import WireSchema.Proofs.Reading

/-! Encoding undoes decoding, but for truth values that were neither `0` nor `1` and NaNs of 32 bits.
Which byte belongs to which leaf is told by the schema and the decoded value alone. -/

namespace WireSchema

open Bytes

abbrev Leaf := Scalar × Value

/-- What becomes of a byte, by the leaf that it belongs to, if it belongs to one. -/
def Rewritten (leaf : Option Leaf) (old new : UInt8) : Prop :=
  match leaf with
  | some (.boolean, _) => new = if old = 0 ∨ old = 1 then old else 0
  | some (.float32, .f32 x) => x.isNaN = false → new = old
  | _ => new = old

theorem rewritten_self {type : Scalar} (h : type ≠ .boolean) (v : Value) (byte : UInt8) :
    Rewritten (some (type, v)) byte byte := by
  unfold Rewritten
  split
  · rename_i hleaf
    cases hleaf
    contradiction
  · exact fun _ => rfl
  · rfl

theorem Rewritten.eq_or {leaf : Option Leaf} {old new : UInt8} (h : Rewritten leaf old new) :
    new = old ∨ (∃ v, leaf = some (.boolean, v)) ∨
      ∃ x : Binary32, leaf = some (.float32, .f32 x) ∧ x.isNaN = true := by
  unfold Rewritten at h
  split at h
  · exact Or.inr (Or.inl ⟨_, rfl⟩)
  · rename_i x
    cases hx : x.isNaN with
    | true => exact Or.inr (Or.inr ⟨x, rfl, hx⟩)
    | false => exact Or.inl (h hx)
  · exact Or.inl h

/-- Bytes rewritten one by one, each under its leaf. -/
inductive Rewrites : List (Option Leaf) → List UInt8 → List UInt8 → Prop
  | nil : Rewrites [] [] []
  | cons {leaf : Option Leaf} {old new : UInt8} {leaves : List (Option Leaf)} {held out : List UInt8} :
      Rewritten leaf old new → Rewrites leaves held out →
      Rewrites (leaf :: leaves) (old :: held) (new :: out)

namespace Rewrites

variable {leaves leaves' : List (Option Leaf)} {held held' out out' : List UInt8}

theorem append (h : Rewrites leaves held out) (h' : Rewrites leaves' held' out') :
    Rewrites (leaves ++ leaves') (held ++ held') (out ++ out') := by
  induction h with
  | nil => exact h'
  | cons hfirst _ ih => exact .cons hfirst ih

theorem length_eq (h : Rewrites leaves held out) : out.length = held.length := by
  induction h with
  | nil => rfl
  | cons _ _ ih => rw [List.length_cons, List.length_cons, ih]

theorem same {leaf : Option Leaf} (h : ∀ byte, Rewritten leaf byte byte) (held : List UInt8) :
    Rewrites (List.replicate held.length leaf) held held := by
  induction held with
  | nil => exact .nil
  | cons byte held ih => exact .cons (h byte) ih

theorem unmarked (held : List UInt8) : Rewrites (List.replicate held.length none) held held :=
  same (fun _ => show Rewritten none _ _ from rfl) held

theorem scalar {type : Scalar} (h : type ≠ .boolean) (v : Value) (held : List UInt8) :
    Rewrites (List.replicate held.length (some (type, v))) held held :=
  same (rewritten_self h v) held

theorem any {leaf : Option Leaf} (h : ∀ old new, Rewritten leaf old new)
    (hlength : out.length = held.length) :
    Rewrites (List.replicate out.length leaf) held out := by
  induction held generalizing out with
  | nil =>
    obtain rfl := List.length_eq_zero_iff.mp hlength
    exact .nil
  | cons old held ih =>
    cases out with
    | nil => cases hlength
    | cons new out => exact .cons (h old new) (ih (Nat.succ.inj hlength))

theorem agree (h : Rewrites leaves held out) (h' : Rewrites leaves held' out) (i : Nat) :
    held[i]? = held'[i]? ∨ (∃ v, leaves[i]? = some (some (.boolean, v))) ∨
      ∃ x : Binary32, leaves[i]? = some (some (.float32, .f32 x)) ∧ x.isNaN = true := by
  induction h generalizing held' i with
  | nil =>
    cases h'
    exact Or.inl rfl
  | @cons leaf old new leaves held out hfirst _ ih =>
    cases h' with
    | @cons _ old' _ _ held' _ hfirst' hrest' =>
      cases i with
      | succ i => exact ih hrest' i
      | zero =>
        simp only [List.getElem?_cons_zero]
        rcases hfirst.eq_or with rfl | ⟨v, rfl⟩ | ⟨x, rfl, hx⟩
        · rcases hfirst'.eq_or with rfl | ⟨v, rfl⟩ | ⟨x, rfl, hx⟩
          · exact Or.inl rfl
          · exact Or.inr (Or.inl ⟨v, rfl⟩)
          · exact Or.inr (Or.inr ⟨x, rfl, hx⟩)
        · exact Or.inr (Or.inl ⟨v, rfl⟩)
        · exact Or.inr (Or.inr ⟨x, rfl, hx⟩)

end Rewrites

namespace Schema

mutual

/-- The leaf of every byte of a value. The bytes that say which flags, labels, variants and elements
there are belong to none. -/
def leaves (discriminant : String) : Schema → Value → List (Option Leaf)
  | .scalar type, v => List.replicate ((type.bytes? v).getD []).length (some (type, v))
  | .custom _, _ => []
  | .enum _, _ | .numberEnum _, _ | .bitmask _, _ => [none]
  | .optional inner, v => if v.isNull then [none] else none :: leaves discriminant inner v
  | .array count element, v =>
    List.replicate count.bytes none ++ (v.items?.getD []).flatMap (leaves discriminant element)
  | .union variants, v =>
    let fields := v.fields?.getD []
    none :: variantLeaves discriminant variants
      ((fields.lookup discriminant).bind Value.toString?) fields
  | .record schemas, v => fieldsLeaves discriminant schemas (v.fields?.getD [])

def fieldsLeaves (discriminant : String) :
    List (String × Schema) → List (String × Value) → List (Option Leaf)
  | [], _ => []
  | (name, schema) :: rest, fields =>
    leaves discriminant schema (Value.field fields name) ++ fieldsLeaves discriminant rest fields

def variantLeaves (discriminant : String) : List (String × List (String × Schema)) → Option String →
    List (String × Value) → List (Option Leaf)
  | [], _, _ => []
  | (tag, schemas) :: rest, wanted, fields =>
    if some tag = wanted then fieldsLeaves discriminant schemas fields
    else variantLeaves discriminant rest wanted fields

end

end Schema

theorem Scalar.bytes?_of_yields {type : Scalar} {v : Value} {held : List UInt8}
    (h : type.read.Yields held v) : ∃ out, type.bytes? v = some out ∧
      Rewrites (List.replicate out.length (some (type, v))) held out := by
  cases type with
  | uint8 => exact ⟨held, (uint8Form.of_yields h).1, Rewrites.scalar (by decide) v held⟩
  | uint16 => exact ⟨held, (uint16Form.of_yields h).1, Rewrites.scalar (by decide) v held⟩
  | uint32 => exact ⟨held, (uint32Form.of_yields h).1, Rewrites.scalar (by decide) v held⟩
  | int8 => exact ⟨held, (int8Form.of_yields h).1, Rewrites.scalar (by decide) v held⟩
  | int16 => exact ⟨held, (int16Form.of_yields h).1, Rewrites.scalar (by decide) v held⟩
  | int32 => exact ⟨held, (int32Form.of_yields h).1, Rewrites.scalar (by decide) v held⟩
  | float32 =>
    obtain ⟨x, hx, rfl⟩ := (Read.exact_u32.map _).map_yields_iff.mp h
    obtain rfl := Read.yields_f32_iff.mp hx
    refine ⟨bigEndian 4 x.toBinary64.toBinary32.bits.toNat, rfl, ?_⟩
    cases hnan : x.isNaN with
    | true =>
      refine Rewrites.any (fun old new hfalse => ?_) (by rw [length_bigEndian, length_bigEndian])
      rw [hnan] at hfalse
      contradiction
    | false =>
      rw [Binary32.toBinary32_toBinary64 (Binary32.isSignalling_of_isNaN hnan)]
      exact Rewrites.scalar (by decide) _ _
  | float64 =>
    obtain ⟨x, hx, rfl⟩ := Read.exact_f64.map_yields_iff.mp h
    obtain rfl := Read.yields_f64_iff.mp hx
    exact ⟨_, rfl, Rewrites.scalar (by decide) _ _⟩
  | boolean =>
    obtain ⟨b, hb, rfl⟩ := (Read.exact_u8.map _).map_yields_iff.mp h
    obtain ⟨byte, rfl, rfl⟩ := Read.yields_bool_iff.mp hb
    refine ⟨_, rfl, .cons ?_ .nil⟩
    change (if byte == 1 then 1 else 0) = if byte = 0 ∨ byte = 1 then byte else 0
    by_cases hone : byte = 1
    · rw [hone]
      rfl
    · by_cases hzero : byte = 0
      · rw [hzero]
        rfl
      · simp [hone, hzero]
  | string =>
    obtain ⟨s, hs, rfl⟩ := Read.exact_text.map_yields_iff.mp h
    exact ⟨held, textBytes?_eq_some_iff.mpr hs, Rewrites.scalar (by decide) _ held⟩

namespace Layout

open Schema

theorem not_isNull_of_read {type : Scalar} {v : Value} {held : List UInt8}
    (h : type.read.Yields held v) : ¬v.isNull = true := by
  obtain ⟨out, hout, -⟩ := type.bytes?_of_yields h
  cases v with
  | null => cases type <;> cases hout
  | _ => exact Bool.false_ne_true

section

variable {discriminant : String}

theorem not_isNull_of_yields {schema : Schema} {layout : Layout}
    (h : Compiles (fun _ => False) discriminant schema layout) (hopt : schema.isOptional = false)
    {v : Value} {held : List UInt8} (hv : layout.read.Yields held v) : ¬v.isNull = true := by
  cases h with
  | scalar type => exact not_isNull_of_read hv
  | extension _ he => exact he.elim
  | enum _ | numberEnum _ =>
    obtain ⟨label, -, rfl⟩ := exact_readLabel.map_yields_iff.mp hv
    exact Bool.false_ne_true
  | bitmask hfit =>
    obtain ⟨byte, -, -, rfl⟩ := (yields_readFlags_iff (flagNames_nodup hfit)).mp hv
    exact Bool.false_ne_true
  | optional _ _ => cases hopt
  | array h =>
    obtain ⟨items, rest, rfl, -⟩ := (yields_read_array_iff (exact_read h)).mp hv
    exact Bool.false_ne_true
  | union _ _ _ h =>
    obtain ⟨index, rest, -, hv⟩ := (yields_read_union_iff (exact_readVariant h)).mp hv
    obtain ⟨key, variant, fields, -, rfl, -⟩ := (yields_readVariant_iff h).mp hv
    exact Bool.false_ne_true
  | record hnames h =>
    obtain ⟨fields, rfl, -⟩ := (yields_read_record_iff h hnames).mp hv
    exact Bool.false_ne_true

theorem mapM_flag?_zip {names : List String} (h : names.Nodup) {set : List Bool}
    (hlength : set.length = names.length) :
    names.mapM (Value.flag? (names.zip (set.map Value.bool))) = some set := by
  rw [mapM_eq_some_iff_forall₂, List.forall₂_iff_get]
  refine ⟨hlength.symm, fun i hi hi' => ?_⟩
  have hkeys : ((names.zip (set.map Value.bool)).map Prod.fst).Nodup := by
    rwa [List.map_fst_zip (by rw [List.length_map, hlength])]
  have hmem : (names.get ⟨i, hi⟩, Value.bool (set.get ⟨i, hi'⟩)) ∈
      names.zip (set.map Value.bool) := by
    rw [List.mem_iff_getElem]
    refine ⟨i, by simp [hi, hi'], by simp⟩
  have hlookup := (Assoc.lookup_eq_some_iff_mem hkeys).mpr hmem
  rw [Value.flag?, Value.field, hlookup]
  rfl

theorem rewrites_items {element : Read Value} {bytesOf : Value → Option (List UInt8)}
    {leavesOf : Value → List (Option Leaf)}
    (h : ∀ held v, element.Yields held v → ∃ out, bytesOf v = some out ∧
      Rewrites (leavesOf v) held out)
    {items : List Value} {held : List UInt8} (heach : element.YieldsEach items held) :
    ∃ parts, items.mapM bytesOf = some parts ∧
      Rewrites (items.flatMap leavesOf) held parts.flatten := by
  induction items generalizing held with
  | nil =>
    obtain rfl : held = [] := heach
    exact ⟨[], rfl, .nil⟩
  | cons v items ih =>
    obtain ⟨first, second, rfl, hfirst, hsecond⟩ := heach
    obtain ⟨out, hout, hrewrites⟩ := h first v hfirst
    obtain ⟨parts, hparts, hrest⟩ := ih hsecond
    refine ⟨out :: parts, ?_, hrewrites.append hrest⟩
    rw [List.mapM_cons, hout, hparts]
    rfl

mutual

/-- What is read is written again, and only leaves are rewritten. -/
theorem bytes?_of_yields : ∀ {schema : Schema} {layout : Layout},
    Compiles (fun _ => False) discriminant schema layout → ∀ {v : Value} {held : List UInt8},
    layout.read.Yields held v → ∃ out, schema.bytes? discriminant v = some out ∧
      Rewrites (schema.leaves discriminant v) held out
  | .scalar _, _, .scalar type, v, held, hv => by
    obtain ⟨out, hout, hrewrites⟩ := type.bytes?_of_yields hv
    refine ⟨out, hout, ?_⟩
    rw [leaves, hout]
    exact hrewrites
  | _, _, .extension _ he, _, _, _ => he.elim
  | .enum labels, _, .enum h, v, held, hv => by
    obtain ⟨label, hlabel, rfl⟩ := exact_readLabel.map_yields_iff.mp hv
    obtain ⟨byte, rfl, hlookup⟩ := yields_readLabel_iff.mp hlabel
    refine ⟨[byte], ?_, Rewrites.unmarked [byte]⟩
    rw [← output?_write (.enum h), output?_write_enum, Value.toString?, Option.bind_some,
      (lookup_labels_labelTable h).mp hlookup]
    rfl
  | .numberEnum labels, _, .numberEnum h, v, held, hv => by
    obtain ⟨label, hlabel, rfl⟩ := exact_readLabel.map_yields_iff.mp hv
    obtain ⟨byte, rfl, hlookup⟩ := yields_readLabel_iff.mp hlabel
    refine ⟨[byte], ?_, Rewrites.unmarked [byte]⟩
    have hintegral : (Value.i32 label).integral? = some label.toInt := rfl
    rw [← output?_write (.numberEnum h), output?_write_numberEnum, hintegral, Option.bind_some,
      LabelTable.ordinalOfInt?, label.ofInt_toInt, if_pos rfl,
      (lookup_labels_labelTable h).mp hlookup]
    rfl
  | .bitmask flags, _, .bitmask h, v, held, hv => by
    have hnodup := flagNames_nodup h
    obtain ⟨byte, rfl, hlength, rfl⟩ := (yields_readFlags_iff hnodup).mp hv
    -- The byte without a marker has no flags, but at least one is declared.
    have hmarker : byte ≠ 0 := by
      rintro rfl
      rw [unpackFlags_zero, length_flagNames h] at hlength
      exact h.nonempty (List.length_eq_zero_iff.mp hlength.symm)
    refine ⟨[byte], bytes?_bitmask_iff.mpr ?_, Rewrites.unmarked [byte]⟩
    exact ⟨_, _, rfl, mapM_flag?_zip hnodup hlength, by rw [packFlags_unpackFlags hmarker]⟩
  | .optional schema, .optional layout, .optional hopt h, v, held, hv => by
    rcases (yields_read_optional_iff (exact_read h)).mp hv with ⟨rfl, rfl⟩ | ⟨rest, rfl, hinner⟩
    · exact ⟨[0], rfl, Rewrites.unmarked [0]⟩
    · obtain ⟨out, hout, hrewrites⟩ := bytes?_of_yields h hinner
      have hnull := not_isNull_of_yields h hopt hinner
      refine ⟨1 :: out, bytes?_optional_iff.mpr (Or.inr ⟨hnull, out, hout, rfl⟩), ?_⟩
      rw [leaves, if_neg hnull]
      exact .cons rfl hrewrites
  | .array count schema, .array _ layout, .array h, v, held, hv => by
    obtain ⟨items, rest, rfl, hlimit, rfl, heach⟩ := (yields_read_array_iff (exact_read h)).mp hv
    obtain ⟨parts, hparts, hrewrites⟩ := rewrites_items (fun _ _ => bytes?_of_yields h) heach
    have hcount := Rewrites.unmarked (bigEndian count.bytes items.length)
    rw [length_bigEndian] at hcount
    refine ⟨_, bytes?_array_iff.mpr ⟨items, parts, rfl, hlimit, hparts, rfl⟩, ?_⟩
    exact hcount.append hrewrites
  | .union variants, .union _ layouts _, .union _ _ htags h, v, held, hv => by
    obtain ⟨index, rest, rfl, hvariant⟩ := (yields_read_union_iff (exact_readVariant h)).mp hv
    obtain ⟨key, variant, fields, hget, rfl, hfields⟩ := (yields_readVariant_iff h).mp hvariant
    obtain ⟨out, hout, hrewrites⟩ := variantBytes?_of_yields h (k := 0) htags hget hfields
    have hlookup : ((discriminant, Value.string key.tag) :: fields).lookup discriminant =
        some (.string key.tag) := List.lookup_cons_self
    rw [Nat.zero_add, bigEndian_one] at hout
    refine ⟨index :: out, bytes?_union_iff.mpr ⟨_, key.tag, rfl, hlookup, hout⟩, ?_⟩
    rw [leaves, Value.fields?, Option.getD_some, hlookup]
    exact .cons rfl hrewrites
  | .record schemas, .record layouts, .record hnames h, v, held, hv => by
    obtain ⟨fields, rfl, hfields⟩ := (yields_read_record_iff h hnames).mp hv
    obtain ⟨out, hout, hrewrites⟩ := @fieldsBytes?_of_yields _ _ h [] _ _ hnames hfields
    exact ⟨out, bytes?_record_iff.mpr ⟨fields, rfl, hout⟩, hrewrites⟩

theorem fieldsBytes?_of_yields : ∀ {schemas : List (String × Schema)}
    {layouts : List (String × Layout)},
    CompilesFields (fun _ => False) discriminant schemas layouts →
    ∀ {front fields : List (String × Value)} {held : List UInt8},
    (front.map Prod.fst ++ schemas.map Prod.fst).Nodup → YieldsFields layouts fields held →
    ∃ out, fieldsBytes? discriminant schemas (front ++ fields) = some out ∧
      Rewrites (fieldsLeaves discriminant schemas (front ++ fields)) held out
  | _, _, .nil, _, [], _, _, hfields => by
    obtain rfl : _ = [] := hfields
    exact ⟨[], rfl, .nil⟩
  | _, _, .nil, _, _ :: _, _, _, hfields => hfields.elim
  | _, _, .cons _ _, _, [], _, _, hfields => hfields.elim
  | (name, schema) :: schemas, _, .cons h hs, front, (name', v) :: fields, held, hnames, hfields => by
    obtain ⟨rfl, first, second, rfl, hfirst, hsecond⟩ := hfields
    obtain ⟨out, hout, hrewrites⟩ := bytes?_of_yields h hfirst
    obtain ⟨others, hothers, hrest⟩ := fieldsBytes?_of_yields hs (nodup_front hnames v) hsecond
    rw [List.append_assoc, List.singleton_append] at hothers hrest
    refine ⟨out ++ others, fieldsBytes?_cons_iff.mpr ⟨out, others, ?_, hothers, rfl⟩, ?_⟩
    · rw [field_front hnames, hout]
    · rw [fieldsLeaves, field_front hnames]
      exact hrewrites.append hrest

theorem variantBytes?_of_yields : ∀ {variants : List (String × List (String × Schema))}
    {layouts : List (VariantKey × List (String × Layout))},
    CompilesVariants (fun _ => False) discriminant variants layouts →
    ∀ {k place : Nat} {key : VariantKey} {variant : List (String × Layout)}
      {fields : List (String × Value)} {held : List UInt8},
    (variants.map Prod.fst).Nodup → layouts[place]? = some (key, variant) →
    YieldsFields variant fields held → ∃ out,
      variantBytes? discriminant variants k key.tag ((discriminant, .string key.tag) :: fields) =
        some (bigEndian 1 (k + place) ++ out) ∧
      Rewrites (variantLeaves discriminant variants (some key.tag)
        ((discriminant, .string key.tag) :: fields)) held out
  | _, _, .nil, _, _, _, _, _, _, _, hget, _ => nomatch hget
  | (t, schemas) :: _, _, .cons hnames h _, k, 0, _, _, fields, held, _, hget, hfields => by
    cases hget
    obtain ⟨out, hout, hrewrites⟩ :=
      @fieldsBytes?_of_yields _ _ h [(discriminant, .string t)] _ _ hnames hfields
    rw [List.singleton_append] at hout
    refine ⟨out, variantBytes?_cons_iff.mpr (Or.inl ⟨rfl, out, hout, rfl⟩), ?_⟩
    rw [variantLeaves, if_pos rfl]
    exact hrewrites
  | (t, _) :: variants, (_, _) :: others, .cons _ _ hs, k, place + 1, key, variant, fields, held,
      htags, hget, hfields => by
    rw [List.map_cons, List.nodup_cons] at htags
    obtain ⟨out, hout, hrewrites⟩ := variantBytes?_of_yields hs (k := k + 1) htags.2 hget hfields
    have htag := hs.tag_ne htags.1 hget
    rw [Nat.add_right_comm, Nat.add_assoc] at hout
    refine ⟨out, variantBytes?_cons_iff.mpr (Or.inr ⟨htag, hout⟩), ?_⟩
    rw [variantLeaves, if_neg fun heq => htag (Option.some.inj heq)]
    exact hrewrites

end

end

end Layout

namespace Codec

variable {types : Extensions} {discriminant : String} {schema : Schema} {c : Codec}

/-- What is decoded is encoded again to as many bytes. Only truth values and NaNs of 32 bits may come back
as other bytes, so buffers of one value differ nowhere else. -/
theorem encode_of_decode (h : ofSchema types discriminant schema = .ok c) (hplain : c.IsPlain)
    {bytes : List UInt8} {v : Value} (hdecode : c.decode bytes = .ok v) :
    (∃ out, c.encode v = .ok out ∧ out.length = bytes.length ∧
      Rewrites (schema.leaves discriminant v) bytes out) ∧
    ∀ bytes', c.decode bytes' = .ok v → ∀ i : Nat, bytes[i]? = bytes'[i]? ∨
      (∃ b, (schema.leaves discriminant v)[i]? = some (some (.boolean, b))) ∨
      ∃ x : Binary32, (schema.leaves discriminant v)[i]? = some (some (.float32, .f32 x)) ∧
        x.isNaN = true := by
  have hc : Compiles (fun _ => False) discriminant schema c.layout := hplain.compiles h
  rw [decode_eq_ok_iff hc] at hdecode
  obtain ⟨out, hout, hrewrites⟩ := Layout.bytes?_of_yields hc hdecode
  constructor
  · refine ⟨out, ?_, hrewrites.length_eq, hrewrites⟩
    rw [encode_eq_ok_iff (hplain.compiles h), Layout.output?_write hc, hout]
  · intro bytes' hdecode' i
    rw [decode_eq_ok_iff hc] at hdecode'
    obtain ⟨out', hout', hrewrites'⟩ := Layout.bytes?_of_yields hc hdecode'
    rw [hout] at hout'
    cases hout'
    exact hrewrites.agree hrewrites' i

private def lamp : Schema := .record [("on", .scalar .boolean), ("level", .scalar .uint8)]

private def lampCodec : Codec :=
  .ofLayout ∅ lamp (.record [("on", .scalar .boolean), ("level", .scalar .uint8)])

/-- A byte that is no truth value is read as false and written as `0`. -/
theorem encode_of_decode_lamp :
    ofSchema ∅ "type" lamp = .ok lampCodec ∧ lampCodec.IsPlain ∧
      lampCodec.decode [7, 5] = .ok (.object [("on", .bool false), ("level", .u8 5)]) ∧
      lampCodec.encode (.object [("on", .bool false), ("level", .u8 5)]) = .ok [0, 5] ∧
      Rewrites [some (.boolean, .bool false), some (.uint8, .u8 5)] [7, 5] [0, 5] := by
  have hcodec : ofSchema ∅ "type" lamp = .ok lampCodec := rfl
  have hplain : lampCodec.IsPlain := isPlain_of_empty hcodec
  have hdecode : lampCodec.decode [7, 5] = .ok (.object [("on", .bool false), ("level", .u8 5)]) := rfl
  have hencode : lampCodec.encode (.object [("on", .bool false), ("level", .u8 5)]) = .ok [0, 5] := rfl
  obtain ⟨out, hout, -, hrewrites⟩ := (encode_of_decode hcodec hplain hdecode).1
  rw [hencode] at hout
  cases hout
  exact ⟨hcodec, hplain, hdecode, hencode, hrewrites⟩

end Codec

end WireSchema
