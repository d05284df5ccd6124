import WireSchema.Proofs.Mismatches

/-! An object is looked up by the declared names and never walked, so neither the order of its keys nor
the keys beside the declared ones matter, and an absent entry is as good as null. -/

namespace WireSchema

/-- The same value, or two objects whose entries are in a relation. -/
def Value.Entrywise (R : List (String × Value) → List (String × Value) → Prop) (v w : Value) : Prop :=
  v = w ∨ ∃ fields fields', v = .object fields ∧ w = .object fields' ∧ R fields fields'

def Value.Elementwise (R : Value → Value → Prop) (v w : Value) : Prop :=
  v = w ∨ ∃ items items', v = .array items ∧ w = .array items' ∧ List.Forall₂ R items items'

namespace Schema

section

variable (discriminant : String)

mutual

/-- Values that differ at most in how their objects keep the declared entries and in what they keep beside
them. Absent entries count as null, only the discriminant must be there in both or in neither. -/
def Agrees : Schema → Value → Value → Prop
  | .scalar _, v, w | .custom _, v, w | .enum _, v, w | .numberEnum _, v, w => v = w
  | .bitmask flags, v, w => v.Entrywise (fun fields fields' =>
      ∀ f ∈ flags, Value.field fields f.1 = Value.field fields' f.1) w
  | .optional inner, v, w => Agrees inner v w
  | .array _ element, v, w => v.Elementwise (Agrees element) w
  | .union variants, v, w => v.Entrywise (fun fields fields' =>
      fields.lookup discriminant = fields'.lookup discriminant ∧ VariantsAgree variants fields fields') w
  | .record schemas, v, w => v.Entrywise (FieldsAgree schemas) w

def FieldsAgree : List (String × Schema) → List (String × Value) → List (String × Value) → Prop
  | [], _, _ => True
  | (name, schema) :: rest, fields, fields' =>
    Agrees schema (Value.field fields name) (Value.field fields' name) ∧ FieldsAgree rest fields fields'

def VariantsAgree : List (String × List (String × Schema)) → List (String × Value) →
    List (String × Value) → Prop
  | [], _, _ => True
  | (tag, schemas) :: rest, fields, fields' =>
    (fields.lookup discriminant = some (.string tag) → FieldsAgree schemas fields fields') ∧
      VariantsAgree rest fields fields'

end

end

section

variable {discriminant : String}

theorem Agrees.isNull_eq : ∀ {schema : Schema} {v w : Value},
    schema.Agrees discriminant v w → v.isNull = w.isNull
  | .scalar _, _, _, h | .custom _, _, _, h | .enum _, _, _, h | .numberEnum _, _, _, h =>
    congrArg Value.isNull h
  | .bitmask _, _, _, h | .union _, _, _, h | .record _, _, _, h => by
    rcases h with rfl | ⟨fields, fields', rfl, rfl, -⟩
    · rfl
    · rfl
  | .optional inner, v, w, h => isNull_eq (show inner.Agrees discriminant v w from h)
  | .array _ _, _, _, h => by
    rcases h with rfl | ⟨items, items', rfl, rfl, -⟩
    · rfl
    · rfl

theorem VariantsAgree.of_lookup {variants : List (String × List (String × Schema))}
    {fields fields' : List (String × Value)} (h : VariantsAgree discriminant variants fields fields')
    {tag : String} {schemas : List (String × Schema)}
    (hfound : fields.lookup discriminant = some (.string tag))
    (hlookup : variants.lookup tag = some schemas) : FieldsAgree discriminant schemas fields fields' := by
  induction variants with
  | nil => cases hlookup
  | cons variant variants ih =>
    rw [List.lookup_cons] at hlookup
    cases heq : tag == variant.1 with
    | true =>
      rw [heq] at hlookup
      cases hlookup
      exact h.1 (by rw [hfound, eq_of_beq heq])
    | false =>
      rw [heq] at hlookup
      exact ih h.2 hlookup

theorem VariantsAgree.fieldsAgree {variants : List (String × List (String × Schema))}
    {fields fields' : List (String × Value)} (h : VariantsAgree discriminant variants fields fields')
    {schemas : List (String × Schema)}
    (hdeclared : declared? discriminant (.union variants) fields = some schemas) :
    FieldsAgree discriminant schemas fields fields' := by
  obtain ⟨found, hfound, hnamed⟩ := Option.bind_eq_some_iff.mp hdeclared
  obtain ⟨tag, htag, hlookup⟩ := Option.bind_eq_some_iff.mp hnamed
  obtain rfl := Value.toString?_eq_some_iff.mp htag
  exact h.of_lookup hfound hlookup

end

end Schema

open Schema

namespace Value

theorem expectItems_array (count : CountWidth) (items : List Value) :
    (array items).expectItems count = if items.length ≤ count.limit then .ok items
      else .error (.mismatch [] (.tooManyElements items.length count)) := rfl

theorem expectVariant_object {discriminant : String} {fields fields' : List (String × Value)}
    (h : fields.lookup discriminant = fields'.lookup discriminant) (indices : List (String × UInt8)) :
    (∃ failure, (object fields).expectVariant discriminant indices = .error failure ∧
      (object fields').expectVariant discriminant indices = .error failure) ∨
    ∃ index, (object fields).expectVariant discriminant indices = .ok (index, fields) ∧
      (object fields').expectVariant discriminant indices = .ok (index, fields') := by
  simp only [expectVariant, expect, fields?, bind, Except.bind, h]
  split
  · split
    · exact Or.inr ⟨_, rfl, rfl⟩
    · exact Or.inl ⟨_, rfl, rfl⟩
  · exact Or.inl ⟨_, rfl, rfl⟩
  · exact Or.inl ⟨_, rfl, rfl⟩

end Value

namespace Layout

structure Confuses (layout : Layout) (v w : Value) : Prop where
  size_eq : layout.size v = layout.size w
  write_eq : layout.write v = layout.write w

structure FieldsConfuse (layouts : List (String × Layout)) (fields fields' : List (String × Value)) :
    Prop where
  size_eq : fieldsSize layouts fields = fieldsSize layouts fields'
  write_eq : writeFields layouts fields = writeFields layouts fields'

theorem confuses_self (layout : Layout) (v : Value) : layout.Confuses v v := ⟨rfl, rfl⟩

theorem confuses_of_entrywise {layout : Layout}
    {R : List (String × Value) → List (String × Value) → Prop} {v w : Value} (h : v.Entrywise R w)
    (hobject : ∀ fields fields', R fields fields' → layout.Confuses (.object fields) (.object fields')) :
    layout.Confuses v w := by
  rcases h with rfl | ⟨fields, fields', rfl, rfl, hentries⟩
  · exact confuses_self layout v
  · exact hobject fields fields' hentries

theorem Confuses.optional {inner : Layout} {v w : Value} (h : inner.Confuses v w)
    (hnull : v.isNull = w.isNull) : (optional inner).Confuses v w where
  size_eq := by rw [size, size, hnull, h.size_eq]
  write_eq := by rw [write, write, hnull, h.write_eq]

theorem mapM_expectFlag_congr {fields fields' : List (String × Value)} {names : List String}
    (h : ∀ name ∈ names, Value.field fields name = Value.field fields' name) :
    names.mapM (Value.expectFlag fields) = names.mapM (Value.expectFlag fields') := by
  induction names with
  | nil => rfl
  | cons name rest ih =>
    obtain ⟨hname, hrest⟩ := List.forall_mem_cons.mp h
    rw [List.mapM_cons, List.mapM_cons, ih hrest, Value.expectFlag, Value.expectFlag, hname]

theorem confuses_bitmask {names : List String} {fields fields' : List (String × Value)}
    (h : ∀ name ∈ names, Value.field fields name = Value.field fields' name) :
    (bitmask names).Confuses (.object fields) (.object fields') where
  size_eq := rfl
  write_eq := by
    change Write.ofExcept (names.mapM (Value.expectFlag fields)) >>= Write.flags =
      Write.ofExcept (names.mapM (Value.expectFlag fields')) >>= Write.flags
    rw [mapM_expectFlag_congr h]

section

variable {element : Layout} {items items' : List Value}

theorem sumSizes_congr (h : List.Forall₂ element.Confuses items items') :
    sumSizes element.size items = sumSizes element.size items' := by
  induction h with
  | nil => rfl
  | cons hfirst _ ih => rw [sumSizes, sumSizes, hfirst.size_eq, ih]

theorem writeItems_congr (h : List.Forall₂ element.Confuses items items') (index : Nat) :
    writeItems element.write index items = writeItems element.write index items' := by
  induction h generalizing index with
  | nil => rfl
  | cons hfirst _ ih => rw [writeItems, writeItems, hfirst.write_eq, ih]

theorem confuses_array (h : List.Forall₂ element.Confuses items items') (count : CountWidth) :
    (array count element).Confuses (.array items) (.array items') := by
  have hlength := h.length_eq
  constructor
  · rw [size, size, Value.expectItems_array, Value.expectItems_array, hlength]
    split
    · simp only [bind, Except.bind, hlength, sumSizes_congr h]
    · rfl
  · rw [write, write, Value.expectItems_array, Value.expectItems_array, hlength]
    split
    · simp only [Write.ofExcept_bind, hlength, writeItems_congr h]
    · rfl

end

theorem FieldsConfuse.record {layouts : List (String × Layout)} {fields fields' : List (String × Value)}
    (h : FieldsConfuse layouts fields fields') :
    (record layouts).Confuses (.object fields) (.object fields') :=
  ⟨h.size_eq, h.write_eq⟩

theorem Confuses.cons {name : String} {layout : Layout} {layouts : List (String × Layout)}
    {fields fields' : List (String × Value)}
    (h : layout.Confuses (Value.field fields name) (Value.field fields' name))
    (hs : FieldsConfuse layouts fields fields') :
    FieldsConfuse ((name, layout) :: layouts) fields fields' where
  size_eq := by rw [fieldsSize, fieldsSize, h.size_eq, hs.size_eq]
  write_eq := by rw [writeFields, writeFields, h.write_eq, hs.write_eq]

theorem confuses_union {discriminant : String} {variants : List (VariantKey × List (String × Layout))}
    {indices : List (String × UInt8)} {fields fields' : List (String × Value)}
    (hlookup : fields.lookup discriminant = fields'.lookup discriminant)
    (h : ∀ index, (Value.object fields).expectVariant discriminant indices = .ok (index, fields) →
      variantSize index variants index.toNat fields = variantSize index variants index.toNat fields' ∧
      writeVariant index variants index.toNat fields = writeVariant index variants index.toNat fields') :
    (union discriminant variants indices).Confuses (.object fields) (.object fields') := by
  rcases Value.expectVariant_object hlookup indices with ⟨failure, hpick, hpick'⟩ | ⟨index, hpick, hpick'⟩
  -- If no variant is picked, both fail in the same way before anything is written.
  · exact ⟨by rw [size, size, hpick, hpick'], by rw [write, write, hpick, hpick']⟩
  · obtain ⟨hsize, hwrite⟩ := h index hpick
    constructor
    · rw [size, size, hpick, hpick']
      exact congrArg ((1 + ·) <$> ·) hsize
    · rw [write, write, hpick, hpick', Write.ofExcept_bind, Write.ofExcept_bind]
      exact congrArg (Write.u8 index >>= fun _ => ·) hwrite

section

variable {E : Extension → Prop} {discriminant : String}

mutual

theorem confuses_of_agrees : ∀ {schema : Schema} {layout : Layout},
    Compiles E discriminant schema layout → ∀ {v w : Value}, schema.Agrees discriminant v w →
    layout.Confuses v w
  | _, _, .scalar _, v, _, h | _, _, .enum _, v, _, h | _, _, .numberEnum _, v, _, h => by
    obtain rfl := h
    exact confuses_self _ v
  | .scalar _, _, .extension _ _, v, _, h | .custom _, _, .extension _ _, v, _, h => by
    obtain rfl := h
    exact confuses_self _ v
  | .bitmask flags, _, .bitmask hfit, v, w, h => by
    apply confuses_of_entrywise h
    intro fields fields' hflags
    apply confuses_bitmask
    intro name hname
    obtain ⟨f, hf, rfl⟩ := List.mem_map.mp ((flagNames_perm hfit).mem_iff.mp hname)
    exact hflags f hf
  | .optional _, _, .optional _ hc, v, w, h =>
    (confuses_of_agrees hc h).optional (Agrees.isNull_eq h)
  | .array count _, _, .array hc, v, w, h => by
    rcases h with rfl | ⟨items, items', rfl, rfl, hitems⟩
    · exact confuses_self _ v
    · exact confuses_array (hitems.imp fun _ _ => confuses_of_agrees hc) count
  | .union variants, _, .union _ hmany htags hc, v, w, h => by
    apply confuses_of_entrywise h
    rintro fields fields' ⟨hlookup, hvariants⟩
    apply confuses_union hlookup
    intro index hpick
    obtain ⟨tag, schemas, -, hget, hdeclared⟩ := exists_picked hmany htags hpick
    exact variantsConfuse_of_agree hc index hget (hvariants.fieldsAgree hdeclared)
  | .record schemas, _, .record _ hc, v, w, h =>
    confuses_of_entrywise h fun _ _ hfields => (fieldsConfuse_of_agree hc hfields).record

theorem fieldsConfuse_of_agree : ∀ {schemas : List (String × Schema)}
    {layouts : List (String × Layout)}, CompilesFields E discriminant schemas layouts →
    ∀ {fields fields' : List (String × Value)}, FieldsAgree discriminant schemas fields fields' →
    FieldsConfuse layouts fields fields'
  | _, _, .nil, _, _, _ => ⟨rfl, rfl⟩
  | _, _, .cons hc hs, _, _, h => (confuses_of_agrees hc h.1).cons (fieldsConfuse_of_agree hs h.2)

theorem variantsConfuse_of_agree : ∀ {variants : List (String × List (String × Schema))}
    {layouts : List (VariantKey × List (String × Layout))},
    CompilesVariants E discriminant variants layouts → ∀ (index : UInt8) {place : Nat} {tag : String}
    {schemas : List (String × Schema)}, variants[place]? = some (tag, schemas) →
    ∀ {fields fields' : List (String × Value)}, FieldsAgree discriminant schemas fields fields' →
    variantSize index layouts place fields = variantSize index layouts place fields' ∧
      writeVariant index layouts place fields = writeVariant index layouts place fields'
  | _, _, .nil, _, _, _, _, hget, _, _, _ => nomatch hget
  | _, _, .cons _ hc _, _, 0, _, _, hget, _, _, h => by
    cases hget
    exact ⟨(fieldsConfuse_of_agree hc h).size_eq, (fieldsConfuse_of_agree hc h).write_eq⟩
  | _, _, .cons _ _ hs, index, _ + 1, _, _, hget, _, _, h => variantsConfuse_of_agree hs index hget h

end

end

end Layout

namespace Codec

variable {types : Extensions} {discriminant : String} {schema : Schema} {c : Codec}

/-- The order of keys, keys that are not declared, and whether a null is spelled out change nothing:
neither the size nor the encoding, nor what is left in a writer, be it a success or a failure. -/
theorem encode_eq_of_agrees (h : ofSchema types discriminant schema = .ok c) {v w : Value}
    (hagrees : schema.Agrees discriminant v w) :
    c.size v = c.size w ∧ c.encode v = c.encode w ∧
      ∀ writer, c.encodeInto v writer = c.encodeInto w writer := by
  have hc : Compiles (fun _ => True) discriminant schema c.layout :=
    Codec.compiles h fun _ _ _ _ => trivial
  have hconfuses := Layout.confuses_of_agrees hc hagrees
  have hsize : c.size v = c.size w := hconfuses.size_eq
  have hinto : ∀ writer, c.encodeInto v writer = c.encodeInto w writer := by
    intro writer
    rw [encodeInto, encodeInto, hconfuses.write_eq]
  refine ⟨hsize, ?_, hinto⟩
  simp only [encode_eq, hsize, hinto]

private def badge : Schema :=
  .union [("guest", []), ("member", [("level", .scalar .uint8),
    ("rights", .bitmask [("write", 1), ("read", 0)])])]

private def badgeCodec : Codec :=
  .ofLayout ∅ badge (.union "type" [(⟨"guest", 0⟩, []), (⟨"member", 1⟩, [("level", .scalar .uint8),
    ("rights", .bitmask ["read", "write"])])] [("guest", 0), ("member", 1)])

private def tidyBadge (level : Value) : Value :=
  .object [("type", .string "member"), ("level", level),
    ("rights", .object [("read", .bool true), ("write", .null)])]

private def untidyBadge (level : Value) : Value :=
  .object [("rights", .object [("note", .u8 1), ("read", .bool true)]), ("colour", .string "red"),
    ("level", level), ("type", .string "member")]

/-- A badge in disorder is encoded as the tidy one is, and refused as the tidy one is. -/
theorem encode_eq_of_agrees_badge :
    ofSchema ∅ "type" badge = .ok badgeCodec ∧
      (badge.Agrees "type" (tidyBadge (.u8 3)) (untidyBadge (.u8 3)) ∧
        badgeCodec.encode (untidyBadge (.u8 3)) = .ok [1, 3, 6] ∧
        badgeCodec.encode (tidyBadge (.u8 3)) = badgeCodec.encode (untidyBadge (.u8 3))) ∧
      badge.Agrees "type" (tidyBadge (.u16 300)) (untidyBadge (.u16 300)) ∧
        badgeCodec.encode (untidyBadge (.u16 300)) =
          .error (.mismatch [.field "level"] (.outOfRange 300 .uint8)) ∧
        badgeCodec.encode (tidyBadge (.u16 300)) = badgeCodec.encode (untidyBadge (.u16 300)) := by
  have hcodec : ofSchema ∅ "type" badge = .ok badgeCodec := by cbv
  have hagrees : ∀ level, badge.Agrees "type" (tidyBadge level) (untidyBadge level) := by
    intro level
    refine Or.inr ⟨_, _, rfl, rfl, rfl, fun hguest => ?_, fun _ => ⟨rfl, ?_, trivial⟩, trivial⟩
    · trivial
    · refine Or.inr ⟨_, _, rfl, rfl, ?_⟩
      simp [Value.field, List.lookup_cons]
  exact ⟨hcodec, ⟨hagrees _, rfl, (encode_eq_of_agrees hcodec (hagrees _)).2.1⟩, hagrees _, rfl,
    (encode_eq_of_agrees hcodec (hagrees _)).2.1⟩

end Codec

end WireSchema
