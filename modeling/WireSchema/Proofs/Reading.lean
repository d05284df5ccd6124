import WireSchema.Proofs.Compiled
import WireSchema.Proofs.Scalars

/-! Without custom types a value is read from the bytes consumed for it and from nothing else. The
equivalences below say from which bytes, one for each kind of layout. -/

namespace WireSchema.Layout

open Read

theorem exact_readCount (count : CountWidth) : (readCount count).Exact := by
  cases count with
  | one => exact exact_u8.map _
  | two => exact exact_u16.map _

theorem yields_readCount_iff {count : CountWidth} {held : List UInt8} {n : Nat} :
    (readCount count).Yields held n ↔ n ≤ count.limit ∧ held = Bytes.bigEndian count.bytes n := by
  cases count with
  | one =>
    rw [readCount, exact_u8.map_yields_iff]
    constructor
    · rintro ⟨byte, hbyte, rfl⟩
      rw [yields_u8_iff] at hbyte
      exact ⟨Nat.le_of_lt_succ byte.toNat_lt, hbyte.trans (Bytes.bigEndian_one byte).symm⟩
    · rintro ⟨hn, rfl⟩
      have hbyte : (UInt8.ofNat n).toNat = n := UInt8.toNat_ofNat_of_lt' (Nat.lt_succ_of_le hn)
      exact ⟨UInt8.ofNat n, yields_u8_iff.mpr (Bytes.bigEndian_one_ofNat n), hbyte.symm⟩
  | two =>
    rw [readCount, exact_u16.map_yields_iff]
    constructor
    · rintro ⟨unit, hunit, rfl⟩
      exact ⟨Nat.le_of_lt_succ unit.toNat_lt, yields_u16_iff.mp hunit⟩
    · rintro ⟨hn, rfl⟩
      have hunit : (UInt16.ofNat n).toNat = n := UInt16.toNat_ofNat_of_lt' (Nat.lt_succ_of_le hn)
      refine ⟨UInt16.ofNat n, yields_u16_iff.mpr ?_, hunit.symm⟩
      rw [hunit]
      rfl

section

variable {α : Type} {table : LabelTable α} {unknown : UInt8 → Undeclared}

private theorem exact_labelOf (byte : UInt8) :
    (match table.labels.lookup byte with
      | some label => pure label
      | none => fail (.undeclared (unknown byte)) : Read α).Exact := by
  split
  · exact exact_pure _
  · exact exact_fail _

theorem exact_readLabel : (readLabel table unknown).Exact := exact_u8.bind exact_labelOf

theorem yields_readLabel_iff {held : List UInt8} {label : α} :
    (readLabel table unknown).Yields held label ↔
      ∃ byte, held = [byte] ∧ table.labels.lookup byte = some label := by
  refine (exact_u8.bind_yields_iff exact_labelOf).trans ?_
  constructor
  · rintro ⟨byte, first, second, rfl, hbyte, hlabel⟩
    rw [yields_u8_iff] at hbyte
    split at hlabel
    · rename_i label' hlookup
      obtain ⟨rfl, rfl⟩ := yields_pure_iff.mp hlabel
      exact ⟨byte, by rw [hbyte, List.append_nil], hlookup⟩
    · exact absurd hlabel not_yields_fail
  · rintro ⟨byte, rfl, hlookup⟩
    refine ⟨byte, [byte], [], rfl, yields_u8_iff.mpr rfl, ?_⟩
    rw [hlookup]
    exact yields_pure_iff.mpr ⟨rfl, rfl⟩

end

private theorem exact_flagsOf (names : List String) (set : List Bool) :
    (if set.length = names.length then pure (.object (Assoc.ofList (names.zip (set.map Value.bool))))
      else fail (.malformed (.flagCount set.length names.length)) : Read Value).Exact := by
  split
  · exact exact_pure _
  · exact exact_fail _

theorem exact_readFlags (names : List String) : (readFlags names).Exact :=
  (exact_u8.map _).bind (exact_flagsOf names)

theorem yields_readFlags_iff {names : List String} (h : names.Nodup) {held : List UInt8} {v : Value} :
    (readFlags names).Yields held v ↔ ∃ byte, held = [byte] ∧
      (Bytes.unpackFlags byte).length = names.length ∧
        v = .object (names.zip ((Bytes.unpackFlags byte).map Value.bool)) := by
  have hobject : ∀ set : List Bool, set.length = names.length →
      Assoc.ofList (names.zip (set.map Value.bool)) = names.zip (set.map Value.bool) := by
    intro set hset
    apply Assoc.ofList_of_nodup
    rwa [List.map_fst_zip (by rw [List.length_map, hset])]
  refine ((exact_u8.map _).bind_yields_iff (exact_flagsOf names)).trans ?_
  constructor
  · rintro ⟨set, first, second, rfl, hset, hobj⟩
    obtain ⟨byte, rfl, rfl⟩ := yields_flags_iff.mp hset
    split at hobj
    · rename_i hlength
      obtain ⟨rfl, rfl⟩ := yields_pure_iff.mp hobj
      exact ⟨byte, rfl, hlength, by rw [hobject _ hlength]⟩
    · exact absurd hobj not_yields_fail
  · rintro ⟨byte, rfl, hlength, rfl⟩
    refine ⟨_, [byte], [], rfl, yields_flags_iff.mpr ⟨byte, rfl, rfl⟩, ?_⟩
    rw [if_pos hlength, hobject _ hlength]
    exact yields_pure_iff.mpr ⟨rfl, rfl⟩

private theorem exact_presence {inner : Layout} (h : inner.read.Exact) (presence : UInt8) :
    (if presence = 0 then pure .null else if presence = 1 then inner.read
      else fail (.malformed (.presence presence)) : Read Value).Exact := by
  split
  · exact exact_pure _
  split
  · exact h
  · exact exact_fail _

section

variable {discriminant : String}

mutual

theorem exact_read : ∀ {schema : Schema} {layout : Layout},
    Compiles (fun _ => False) discriminant schema layout → layout.read.Exact
  | _, _, .scalar type => type.exact_read
  | _, _, .extension _ he => he.elim
  | _, _, .enum _ | _, _, .numberEnum _ => exact_readLabel.map _
  | _, _, .bitmask _ => exact_readFlags _
  | _, _, .optional _ h => exact_u8.bind (exact_presence (exact_read h))
  | _, _, .array h =>
    (exact_readCount _).bind fun length => ((exact_read h).repeated [] length).map _
  | _, _, .union _ _ _ h => exact_u8.bind fun index => exact_readVariant h index index.toNat
  | _, _, .record _ h => (exact_readFields h []).map _

theorem exact_readFields : ∀ {schemas : List (String × Schema)} {layouts : List (String × Layout)},
    CompilesFields (fun _ => False) discriminant schemas layouts →
    ∀ fields, (readFields layouts fields).Exact
  | _, _, .nil, fields => exact_pure fields
  | _, _, .cons h hs, _ => (exact_read h).bind fun _ => exact_readFields hs _

theorem exact_readVariant : ∀ {variants : List (String × List (String × Schema))}
    {layouts : List (VariantKey × List (String × Layout))},
    CompilesVariants (fun _ => False) discriminant variants layouts →
    ∀ index place, (readVariant discriminant index layouts place).Exact
  | _, _, .nil, _, _ => exact_fail _
  | _, _, .cons _ h _, _, 0 => (exact_readFields h _).map _
  | _, _, .cons _ _ hs, index, place + 1 => exact_readVariant hs index place

end

end

theorem yields_read_optional_iff {inner : Layout} (h : inner.read.Exact) {held : List UInt8}
    {v : Value} :
    (read (.optional inner)).Yields held v ↔
      held = [0] ∧ v = .null ∨ ∃ rest, held = 1 :: rest ∧ inner.read.Yields rest v := by
  refine (exact_u8.bind_yields_iff (exact_presence h)).trans ?_
  simp only [yields_u8_iff]
  constructor
  · rintro ⟨presence, _, second, rfl, rfl, hinner⟩
    split at hinner
    · rename_i hzero
      obtain ⟨rfl, rfl⟩ := yields_pure_iff.mp hinner
      exact Or.inl ⟨by rw [hzero]; rfl, rfl⟩
    split at hinner
    · rename_i hone
      exact Or.inr ⟨second, by rw [hone]; rfl, hinner⟩
    · exact absurd hinner not_yields_fail
  · rintro (⟨rfl, rfl⟩ | ⟨rest, rfl, hinner⟩)
    · exact ⟨0, [0], [], rfl, rfl, yields_pure_iff.mpr ⟨rfl, rfl⟩⟩
    · exact ⟨1, [1], rest, rfl, rfl, hinner⟩

theorem yields_read_array_iff {element : Layout} (h : element.read.Exact) {count : CountWidth}
    {held : List UInt8} {v : Value} :
    (read (.array count element)).Yields held v ↔ ∃ items rest, v = .array items ∧
      items.length ≤ count.limit ∧ held = Bytes.bigEndian count.bytes items.length ++ rest ∧
        element.read.YieldsEach items rest := by
  refine ((exact_readCount count).bind_yields_iff
    fun length => (h.repeated [] length).map _).trans ?_
  constructor
  · rintro ⟨length, first, second, rfl, hcount, hitems⟩
    obtain ⟨hlimit, rfl⟩ := yields_readCount_iff.mp hcount
    obtain ⟨items, hrepeated, rfl⟩ := (h.repeated [] length).map_yields_iff.mp hitems
    obtain ⟨_, rfl, rfl, heach⟩ := h.repeated_yields_iff.mp hrepeated
    exact ⟨_, second, rfl, hlimit, rfl, heach⟩
  · rintro ⟨items, rest, rfl, hlimit, rfl, heach⟩
    refine ⟨items.length, _, rest, rfl, yields_readCount_iff.mpr ⟨hlimit, rfl⟩, ?_⟩
    refine (h.repeated [] _).map_yields_iff.mpr ⟨items, ?_, rfl⟩
    exact h.repeated_yields_iff.mpr ⟨items, rfl, rfl, heach⟩

theorem yields_read_union_iff {discriminant : String} {variants : List (VariantKey × List (String × Layout))}
    {indices : List (String × UInt8)}
    (h : ∀ index place, (readVariant discriminant index variants place).Exact) {held : List UInt8}
    {v : Value} :
    (read (.union discriminant variants indices)).Yields held v ↔ ∃ index rest,
      held = index :: rest ∧
        (readVariant discriminant index variants index.toNat).Yields rest v := by
  refine (exact_u8.bind_yields_iff fun index => h index index.toNat).trans ?_
  simp only [yields_u8_iff]
  constructor
  · rintro ⟨index, _, rest, rfl, rfl, hvariant⟩
    exact ⟨index, rest, rfl, hvariant⟩
  · rintro ⟨index, rest, rfl, hvariant⟩
    exact ⟨index, [index], rest, rfl, rfl, hvariant⟩

/-- The declared fields one after the other, each from its own bytes. -/
def YieldsFields : List (String × Layout) → List (String × Value) → List UInt8 → Prop
  | [], [], held => held = []
  | (name, layout) :: rest, (name', v) :: fields, held => name' = name ∧
      ∃ first second, held = first ++ second ∧ layout.read.Yields first v ∧
        YieldsFields rest fields second
  | _, _, _ => False

section

variable {front : List (String × Value)} {name : String} {names : List String}

private theorem not_mem_front (h : (front.map Prod.fst ++ name :: names).Nodup) :
    name ∉ front.map Prod.fst :=
  fun hmem => List.disjoint_of_nodup_append h hmem List.mem_cons_self

theorem nodup_front (h : (front.map Prod.fst ++ name :: names).Nodup) (v : Value) :
    ((front ++ [(name, v)]).map Prod.fst ++ names).Nodup := by
  rwa [List.map_append, List.append_assoc]

theorem field_front (h : (front.map Prod.fst ++ name :: names).Nodup) (v : Value)
    (rest : List (String × Value)) : Value.field (front ++ (name, v) :: rest) name = v := by
  rw [Value.field, Assoc.lookup_append_cons (not_mem_front h)]
  rfl

end

variable {discriminant : String}

theorem yields_readFields_iff {schemas : List (String × Schema)} {layouts : List (String × Layout)}
    (h : CompilesFields (fun _ => False) discriminant schemas layouts)
    (front : List (String × Value)) {fields : List (String × Value)} {held : List UInt8}
    (hnames : (front.map Prod.fst ++ schemas.map Prod.fst).Nodup) :
    (readFields layouts front).Yields held fields ↔
      ∃ new, fields = front ++ new ∧ YieldsFields layouts new held := by
  induction schemas generalizing layouts front held with
  | nil =>
    cases h
    rw [readFields, yields_pure_iff]
    constructor
    · rintro ⟨rfl, rfl⟩
      exact ⟨[], (List.append_nil _).symm, rfl⟩
    · rintro ⟨_ | _, rfl, hheld⟩
      · exact ⟨hheld, List.append_nil _⟩
      · exact hheld.elim
  | cons s schemas ih =>
    cases h with
    | @cons name schema layout _ layouts h hs =>
      have hinsert : ∀ v, Assoc.insert name v front = front ++ [(name, v)] :=
        fun v => Assoc.insert_of_not_mem v (not_mem_front hnames)
      refine ((exact_read h).bind_yields_iff fun v => exact_readFields hs _).trans ?_
      constructor
      · rintro ⟨v, first, second, rfl, hfirst, hsecond⟩
        rw [hinsert] at hsecond
        obtain ⟨new, rfl, hnew⟩ := (ih hs _ (nodup_front hnames v)).mp hsecond
        refine ⟨(name, v) :: new, by rw [List.append_assoc]; rfl, rfl, ?_⟩
        exact ⟨first, second, rfl, hfirst, hnew⟩
      · rintro ⟨_ | ⟨⟨name', v⟩, new⟩, rfl, hnew⟩
        · exact hnew.elim
        · obtain ⟨rfl, first, second, rfl, hfirst, hsecond⟩ := hnew
          refine ⟨v, first, second, rfl, hfirst, ?_⟩
          rw [hinsert]
          exact (ih hs _ (nodup_front hnames v)).mpr ⟨new, by rw [List.append_assoc]; rfl, hsecond⟩

theorem yields_read_record_iff {schemas : List (String × Schema)} {layouts : List (String × Layout)}
    (h : CompilesFields (fun _ => False) discriminant schemas layouts)
    (hnames : (schemas.map Prod.fst).Nodup) {held : List UInt8} {v : Value} :
    (read (.record layouts)).Yields held v ↔
      ∃ fields, v = .object fields ∧ YieldsFields layouts fields held := by
  refine (exact_readFields h []).map_yields_iff.trans ?_
  constructor
  · rintro ⟨fields, hfields, rfl⟩
    obtain ⟨_, rfl, hnew⟩ := (yields_readFields_iff h [] hnames).mp hfields
    exact ⟨_, rfl, hnew⟩
  · rintro ⟨fields, rfl, hfields⟩
    exact ⟨fields, (yields_readFields_iff h [] hnames).mpr ⟨fields, rfl, hfields⟩, rfl⟩

theorem yields_readVariant_iff {variants : List (String × List (String × Schema))}
    {layouts : List (VariantKey × List (String × Layout))}
    (h : CompilesVariants (fun _ => False) discriminant variants layouts) {index : UInt8} {place : Nat}
    {held : List UInt8} {v : Value} :
    (readVariant discriminant index layouts place).Yields held v ↔
      ∃ key variant fields, layouts[place]? = some (key, variant) ∧
        v = .object ((discriminant, .string key.tag) :: fields) ∧ YieldsFields variant fields held := by
  induction variants generalizing layouts place with
  | nil =>
    cases h
    exact ⟨fun hfail => absurd hfail not_yields_fail, fun ⟨_, _, _, hnone, _⟩ => (nomatch hnone)⟩
  | cons variant variants ih =>
    cases h with
    | @cons tag index schemas variant _ others hnames h hs =>
      cases place with
      | succ place => exact ih hs
      | zero =>
        have hread {fields : List (String × Value)} :=
          @yields_readFields_iff _ _ _ h [(discriminant, .string tag)] fields held hnames
        refine (exact_readFields h _).map_yields_iff.trans ?_
        constructor
        · rintro ⟨fields, hfields, rfl⟩
          obtain ⟨new, rfl, hnew⟩ := hread.mp hfields
          exact ⟨⟨tag, index⟩, variant, new, rfl, rfl, hnew⟩
        · rintro ⟨_, _, fields, hget, rfl, hfields⟩
          cases hget
          exact ⟨_, hread.mpr ⟨fields, rfl, hfields⟩, rfl⟩

end WireSchema.Layout

namespace WireSchema.Codec

variable {types : Extensions} {discriminant : String} {schema : Schema} {c : Codec}

theorem decode_eq (c : Codec) (bytes : List UInt8) : c.decode bytes = (do
    let v ← (c.decodeFrom (Cursor.ofBytes bytes)).1
    (c.decodeFrom (Cursor.ofBytes bytes)).2.checkEnd
    return v) := rfl

theorem checkEnd_eq_ok_iff {cursor : Cursor} : cursor.checkEnd = .ok () ↔ cursor.rest = [] := by
  rw [Cursor.checkEnd, ← List.isEmpty_iff]
  split
  · rename_i hempty
    exact iff_of_true rfl hempty
  · rename_i hleft
    exact iff_of_false (by simp) hleft

theorem decode_of_yields {bytes : List UInt8} {v : Value} (h : c.layout.read.Yields bytes v) :
    c.decode bytes = .ok v := by
  have hfrom : c.decodeFrom (Cursor.ofBytes bytes) = (.ok v, ⟨0 + bytes.length, []⟩) := h.run 0
  rw [decode_eq, hfrom]
  rfl

theorem decode_eq_ok_iff (h : Compiles (fun _ => False) discriminant schema c.layout)
    {bytes : List UInt8} {v : Value} :
    c.decode bytes = .ok v ↔ c.layout.read.Yields bytes v := by
  refine ⟨fun hok => ?_, decode_of_yields⟩
  rw [decode_eq] at hok
  obtain ⟨v', hv, hok⟩ := bind_eq_ok_iff.mp hok
  obtain ⟨_, hend, hok⟩ := bind_eq_ok_iff.mp hok
  cases hok
  rw [checkEnd_eq_ok_iff] at hend
  rcases hfrom : c.decodeFrom (Cursor.ofBytes bytes) with ⟨r, ⟨position, rest⟩⟩
  rw [hfrom] at hv hend
  cases hv
  cases hend
  exact (Layout.exact_read h).yields_of_run hfrom

end WireSchema.Codec
