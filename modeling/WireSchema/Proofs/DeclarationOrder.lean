import WireSchema.Proofs.Sizing

/-! A label stands for its ordinal and a flag for its position, wherever they are declared. Fields and
variants, on the other hand, are on the wire in the order of their declarations. -/

namespace WireSchema

namespace Schema

mutual

/-- The same schema but for the order in which labels and flags are declared, at any depth. -/
inductive Permuted : Schema → Schema → Prop
  | scalar (type : Scalar) : Permuted (.scalar type) (.scalar type)
  | custom (name : String) : Permuted (.custom name) (.custom name)
  | enum {labels labels' : List (String × Int64)} :
      labels.Perm labels' → Permuted (.enum labels) (.enum labels')
  | numberEnum {labels labels' : List (Int32 × Int64)} :
      labels.Perm labels' → Permuted (.numberEnum labels) (.numberEnum labels')
  | bitmask {flags flags' : List (String × Int64)} :
      flags.Perm flags' → Permuted (.bitmask flags) (.bitmask flags')
  | optional {inner inner' : Schema} :
      Permuted inner inner' → Permuted (.optional inner) (.optional inner')
  | array (count : CountWidth) {element element' : Schema} :
      Permuted element element' → Permuted (.array count element) (.array count element')
  | union {variants variants' : List (String × List (String × Schema))} :
      VariantsPermuted variants variants' → Permuted (.union variants) (.union variants')
  | record {fields fields' : List (String × Schema)} :
      FieldsPermuted fields fields' → Permuted (.record fields) (.record fields')

inductive FieldsPermuted : List (String × Schema) → List (String × Schema) → Prop
  | nil : FieldsPermuted [] []
  | cons (name : String) {schema schema' : Schema} {fields fields' : List (String × Schema)} :
      Permuted schema schema' → FieldsPermuted fields fields' →
      FieldsPermuted ((name, schema) :: fields) ((name, schema') :: fields')

inductive VariantsPermuted : List (String × List (String × Schema)) →
    List (String × List (String × Schema)) → Prop
  | nil : VariantsPermuted [] []
  | cons (tag : String) {fields fields' : List (String × Schema)}
      {variants variants' : List (String × List (String × Schema))} :
      FieldsPermuted fields fields' → VariantsPermuted variants variants' →
      VariantsPermuted ((tag, fields) :: variants) ((tag, fields') :: variants')

end

theorem FieldsPermuted.names_eq : ∀ {fields fields' : List (String × Schema)},
    FieldsPermuted fields fields' → fields'.map Prod.fst = fields.map Prod.fst
  | _, _, .nil => rfl
  | _, _, .cons name _ hs => congrArg (name :: ·) hs.names_eq

theorem VariantsPermuted.tags_eq : ∀ {variants variants' : List (String × List (String × Schema))},
    VariantsPermuted variants variants' → variants'.map Prod.fst = variants.map Prod.fst
  | _, _, .nil => rfl
  | _, _, .cons tag _ hs => congrArg (tag :: ·) hs.tags_eq

theorem Permuted.isOptional_eq {schema schema' : Schema} (h : Permuted schema schema') :
    schema'.isOptional = schema.isOptional := by
  cases h <;> rfl

section

variable {types : Extensions} {discriminant : String}

mutual

theorem Permuted.wellFormed : ∀ {schema schema' : Schema}, Permuted schema schema' →
    schema.WellFormed types discriminant → schema'.WellFormed types discriminant
  | _, _, .scalar _, hwell | _, _, .custom _, hwell => hwell
  | _, _, .enum hperm, hwell => by
    rw [wellFormed_leaf_iff (by rintro _ ⟨⟩)] at hwell ⊢
    exact LabelsFit.perm hwell hperm
  | _, _, .numberEnum hperm, hwell => by
    rw [wellFormed_leaf_iff (by rintro _ ⟨⟩)] at hwell ⊢
    exact LabelsFit.perm hwell hperm
  | _, _, .bitmask hperm, hwell => by
    rw [wellFormed_leaf_iff (by rintro _ ⟨⟩)] at hwell ⊢
    exact flagsFit_iff.mp ((flagsFit_iff.mpr hwell).perm hperm)
  | _, _, .optional h, hwell => by
    rw [wellFormed_optional_iff] at hwell ⊢
    exact ⟨h.isOptional_eq.trans hwell.1, h.wellFormed hwell.2⟩
  | _, _, .array _ h, hwell => by
    rw [wellFormed_array_iff] at hwell ⊢
    exact h.wellFormed hwell
  | _, _, .union hs, hwell => by
    rw [wellFormed_union_iff] at hwell ⊢
    have hlength := congrArg List.length hs.tags_eq
    rw [List.length_map, List.length_map] at hlength
    exact ⟨hlength ▸ hwell.1, hs.tags_eq ▸ hwell.2.1, hs.wellFormed hwell.2.2⟩
  | _, _, .record hs, hwell => by
    rw [wellFormed_record_iff] at hwell ⊢
    exact ⟨hs.names_eq ▸ hwell.1, hs.wellFormed hwell.2⟩

theorem FieldsPermuted.wellFormed : ∀ {fields fields' : List (String × Schema)},
    FieldsPermuted fields fields' → (∀ f ∈ fields, f.2.WellFormed types discriminant) →
    ∀ f ∈ fields', f.2.WellFormed types discriminant
  | _, _, .nil, hwell => hwell
  | _, _, .cons _ h hs, hwell => by
    rw [List.forall_mem_cons] at hwell ⊢
    exact ⟨h.wellFormed hwell.1, hs.wellFormed hwell.2⟩

theorem VariantsPermuted.wellFormed : ∀ {variants variants' : List (String × List (String × Schema))},
    VariantsPermuted variants variants' →
    (∀ v ∈ variants, (discriminant ∉ v.2.map Prod.fst ∧ (v.2.map Prod.fst).Nodup) ∧
      ∀ f ∈ v.2, f.2.WellFormed types discriminant) →
    ∀ v ∈ variants', (discriminant ∉ v.2.map Prod.fst ∧ (v.2.map Prod.fst).Nodup) ∧
      ∀ f ∈ v.2, f.2.WellFormed types discriminant
  | _, _, .nil, hwell => hwell
  | _, _, .cons _ h hs, hwell => by
    rw [List.forall_mem_cons] at hwell ⊢
    exact ⟨⟨h.names_eq ▸ hwell.1.1, h.wellFormed hwell.1.2⟩, hs.wellFormed hwell.2⟩

end

end

end Schema

namespace Layout

open Schema

/-- Two layouts that size, write and read alike. -/
structure Alike (layout layout' : Layout) : Prop where
  fixedSize?_eq : layout'.fixedSize? = layout.fixedSize?
  size_eq : layout'.size = layout.size
  write_eq : layout'.write = layout.write
  read_eq : layout'.read = layout.read

structure FieldsAlike (layouts layouts' : List (String × Layout)) : Prop where
  fixedSize?_eq : fixedFieldsSize? layouts' = fixedFieldsSize? layouts
  size_eq : fieldsSize layouts' = fieldsSize layouts
  write_eq : writeFields layouts' = writeFields layouts
  read_eq : readFields layouts' = readFields layouts

structure VariantsAlike (variants variants' : List (VariantKey × List (String × Layout))) : Prop where
  keys_eq : variants'.map Prod.fst = variants.map Prod.fst
  fixedSizes_eq : fixedVariantSizes variants' = fixedVariantSizes variants
  size_eq : ∀ index, variantSize index variants' = variantSize index variants
  write_eq : ∀ index, writeVariant index variants' = writeVariant index variants
  read_eq : ∀ discriminant index,
    readVariant discriminant index variants' = readVariant discriminant index variants

theorem alike_self (layout : Layout) : Alike layout layout := ⟨rfl, rfl, rfl, rfl⟩

section

variable {layout layout' : Layout} {layouts layouts' : List (String × Layout)}
  {variants variants' : List (VariantKey × List (String × Layout))}

theorem Alike.optional (h : Alike layout layout') : Alike (optional layout) (optional layout') where
  fixedSize?_eq := rfl
  size_eq := by
    funext v
    rw [size, size, h.size_eq]
  write_eq := by
    funext v
    rw [write, write, h.write_eq]
  read_eq := by rw [read, read, h.read_eq]

theorem Alike.array (h : Alike layout layout') (count : CountWidth) :
    Alike (array count layout) (array count layout') where
  fixedSize?_eq := rfl
  size_eq := by
    funext v
    rw [size, size, h.fixedSize?_eq, h.size_eq]
  write_eq := by
    funext v
    rw [write, write, h.write_eq]
  read_eq := by rw [read, read, h.read_eq]

theorem VariantsAlike.union (h : VariantsAlike variants variants') (discriminant : String)
    (indices : List (String × UInt8)) :
    Alike (union discriminant variants indices) (union discriminant variants' indices) where
  fixedSize?_eq := by rw [fixedSize?, fixedSize?, h.fixedSizes_eq]
  size_eq := by
    funext v
    simp only [size, h.size_eq]
  write_eq := by
    funext v
    simp only [write, h.write_eq]
  read_eq := by simp only [read, h.read_eq]

theorem FieldsAlike.record (h : FieldsAlike layouts layouts') :
    Alike (record layouts) (record layouts') where
  fixedSize?_eq := h.fixedSize?_eq
  size_eq := by
    funext v
    rw [size, size, h.size_eq]
  write_eq := by
    funext v
    rw [write, write, h.write_eq]
  read_eq := by rw [read, read, h.read_eq]

theorem Alike.cons (h : Alike layout layout') (hs : FieldsAlike layouts layouts') (name : String) :
    FieldsAlike ((name, layout) :: layouts) ((name, layout') :: layouts') where
  fixedSize?_eq := by rw [fixedFieldsSize?, fixedFieldsSize?, h.fixedSize?_eq, hs.fixedSize?_eq]
  size_eq := by
    funext fields
    rw [fieldsSize, fieldsSize, h.size_eq, hs.size_eq]
  write_eq := by
    funext fields
    rw [writeFields, writeFields, h.write_eq, hs.write_eq]
  read_eq := by
    funext fields
    rw [readFields, readFields, h.read_eq, hs.read_eq]

theorem FieldsAlike.cons (h : FieldsAlike layouts layouts') (hs : VariantsAlike variants variants')
    (key : VariantKey) : VariantsAlike ((key, layouts) :: variants) ((key, layouts') :: variants') where
  keys_eq := congrArg (key :: ·) hs.keys_eq
  fixedSizes_eq := by rw [fixedVariantSizes, fixedVariantSizes, h.fixedSize?_eq, hs.fixedSizes_eq]
  size_eq index := by
    funext place fields
    cases place with
    | zero => rw [variantSize, variantSize, h.size_eq]
    | succ place => rw [variantSize, variantSize, hs.size_eq]
  write_eq index := by
    funext place fields
    cases place with
    | zero => rw [writeVariant, writeVariant, h.write_eq]
    | succ place => rw [writeVariant, writeVariant, hs.write_eq]
  read_eq discriminant index := by
    funext place
    cases place with
    | zero => rw [readVariant, readVariant, h.read_eq]
    | succ place => rw [readVariant, readVariant, hs.read_eq]

end

section

variable {α : Type} [BEq α] [LawfulBEq α] {labels labels' : List (α × Int64)}

theorem lookup_ordinals_of_perm (h : LabelsFit labels) (hperm : labels.Perm labels') (label : α) :
    (labelTable labels').ordinals.lookup label = (labelTable labels).ordinals.lookup label := by
  rw [lookup_ordinals_labelTable h, lookup_ordinals_labelTable (h.perm hperm),
    Assoc.lookup_of_perm h.labels_nodup hperm]

theorem lookup_labels_of_perm (h : LabelsFit labels) (hperm : labels.Perm labels') (byte : UInt8) :
    (labelTable labels').labels.lookup byte = (labelTable labels).labels.lookup byte := by
  apply Option.ext
  intro label
  rw [lookup_labels_labelTable h, lookup_labels_labelTable (h.perm hperm),
    lookup_ordinals_of_perm h hperm]

theorem readLabel_of_perm (h : LabelsFit labels) (hperm : labels.Perm labels')
    (unknown : UInt8 → Undeclared) :
    readLabel (labelTable labels') unknown = readLabel (labelTable labels) unknown := by
  simp only [readLabel, lookup_labels_of_perm h hperm]

end

theorem alike_enum {labels labels' : List (String × Int64)} (h : LabelsFit labels)
    (hperm : labels.Perm labels') :
    Alike (enum (labelTable labels)) (enum (labelTable labels')) where
  fixedSize?_eq := rfl
  size_eq := rfl
  write_eq := by
    funext v
    simp only [write, lookup_ordinals_of_perm h hperm]
  read_eq := by rw [read, read, readLabel_of_perm h hperm]

theorem alike_numberEnum {labels labels' : List (Int32 × Int64)} (h : LabelsFit labels)
    (hperm : labels.Perm labels') :
    Alike (numberEnum (labelTable labels)) (numberEnum (labelTable labels')) where
  fixedSize?_eq := rfl
  size_eq := rfl
  write_eq := by
    funext v
    simp only [write, LabelTable.ordinalOfInt?, lookup_ordinals_of_perm h hperm]
  read_eq := by rw [read, read, readLabel_of_perm h hperm]

section

variable {types : Extensions} {discriminant : String}

mutual

theorem alike_of_permuted : ∀ {schema schema' : Schema}, Permuted schema schema' →
    schema.WellFormed types discriminant → ∀ {layout : Layout},
    ofSchema types discriminant schema = .ok layout →
    ∃ layout', ofSchema types discriminant schema' = .ok layout' ∧ Alike layout layout'
  | _, _, .scalar _, _, layout, hl | _, _, .custom _, _, layout, hl => ⟨layout, hl, alike_self layout⟩
  | _, .enum labels', .enum hperm, hwell, _, hl => by
    cases hl
    exact ⟨.enum (labelTable labels'), rfl, alike_enum (wellFormed_iff.mp hwell).1 hperm⟩
  | _, .numberEnum labels', .numberEnum hperm, hwell, _, hl => by
    cases hl
    exact ⟨.numberEnum (labelTable labels'), rfl, alike_numberEnum (wellFormed_iff.mp hwell).1 hperm⟩
  | _, _, .bitmask hperm, hwell, _, hl => by
    -- The flags are sorted by their positions, so the layout is the very same.
    have hfit := flagsFit_iff.mpr (wellFormed_iff.mp hwell).1
    cases hl
    refine ⟨_, ?_, alike_self _⟩
    rw [ofSchema, orderedFlags_of_perm hfit hperm]
  | _, _, .optional h, hwell, _, hl => by
    obtain ⟨layout, hinner, rfl⟩ := map_eq_ok_iff.mp hl
    obtain ⟨layout', hinner', halike⟩ := alike_of_permuted h (wellFormed_optional_iff.mp hwell).2 hinner
    exact ⟨_, map_eq_ok_iff.mpr ⟨layout', hinner', rfl⟩, halike.optional⟩
  | _, _, .array count h, hwell, _, hl => by
    obtain ⟨layout, helement, rfl⟩ := map_eq_ok_iff.mp hl
    obtain ⟨layout', helement', halike⟩ := alike_of_permuted h (wellFormed_array_iff.mp hwell) helement
    exact ⟨_, map_eq_ok_iff.mpr ⟨layout', helement', rfl⟩, halike.array count⟩
  | _, _, .union hs, hwell, _, hl => by
    obtain ⟨layouts, hvariants, hlayout⟩ := bind_eq_ok_iff.mp hl
    cases hlayout
    have hfields := fun v hv => ((wellFormed_union_iff.mp hwell).2.2 v hv).2
    obtain ⟨layouts', hvariants', halike⟩ := variantsAlike_of_permuted hs hfields hvariants
    refine ⟨_, bind_eq_ok_iff.mpr ⟨layouts', hvariants', rfl⟩, ?_⟩
    rw [halike.keys_eq]
    exact halike.union discriminant _
  | _, _, .record hs, hwell, _, hl => by
    obtain ⟨layouts, hfields, rfl⟩ := map_eq_ok_iff.mp hl
    obtain ⟨layouts', hfields', halike⟩ :=
      fieldsAlike_of_permuted hs (wellFormed_record_iff.mp hwell).2 hfields
    exact ⟨_, map_eq_ok_iff.mpr ⟨layouts', hfields', rfl⟩, halike.record⟩

theorem fieldsAlike_of_permuted : ∀ {fields fields' : List (String × Schema)},
    FieldsPermuted fields fields' → (∀ f ∈ fields, f.2.WellFormed types discriminant) →
    ∀ {layouts : List (String × Layout)}, ofFields types discriminant fields = .ok layouts →
    ∃ layouts', ofFields types discriminant fields' = .ok layouts' ∧ FieldsAlike layouts layouts'
  | _, _, .nil, _, layouts, hl => ⟨layouts, hl, rfl, rfl, rfl, rfl⟩
  | _, _, .cons name h hs, hwell, _, hl => by
    rw [List.forall_mem_cons] at hwell
    obtain ⟨layout, hfirst, hl⟩ := bind_eq_ok_iff.mp hl
    obtain ⟨layouts, hrest, hl⟩ := bind_eq_ok_iff.mp hl
    cases hl
    obtain ⟨layout', hfirst', halike⟩ := alike_of_permuted h hwell.1 hfirst
    obtain ⟨layouts', hrest', halikes⟩ := fieldsAlike_of_permuted hs hwell.2 hrest
    refine ⟨(name, layout') :: layouts', ?_, halike.cons halikes name⟩
    exact bind_eq_ok_iff.mpr ⟨layout', hfirst', bind_eq_ok_iff.mpr ⟨layouts', hrest', rfl⟩⟩

theorem variantsAlike_of_permuted : ∀ {place : Nat}
    {variants variants' : List (String × List (String × Schema))},
    VariantsPermuted variants variants' →
    (∀ v ∈ variants, ∀ f ∈ v.2, f.2.WellFormed types discriminant) →
    ∀ {layouts : List (VariantKey × List (String × Layout))},
    ofVariants types discriminant place variants = .ok layouts →
    ∃ layouts', ofVariants types discriminant place variants' = .ok layouts' ∧
      VariantsAlike layouts layouts'
  | _, _, _, .nil, _, layouts, hl => ⟨layouts, hl, rfl, rfl, fun _ => rfl, fun _ => rfl, fun _ _ => rfl⟩
  | place, _, _, .cons tag h hs, hwell, _, hl => by
    rw [List.forall_mem_cons] at hwell
    obtain ⟨layout, hfirst, hl⟩ := bind_eq_ok_iff.mp hl
    obtain ⟨layouts, hrest, hl⟩ := bind_eq_ok_iff.mp hl
    cases hl
    obtain ⟨layout', hfirst', halike⟩ := fieldsAlike_of_permuted h hwell.1 hfirst
    obtain ⟨layouts', hrest', halikes⟩ := variantsAlike_of_permuted hs hwell.2 hrest
    refine ⟨(⟨tag, UInt8.ofNat place⟩, layout') :: layouts', ?_, halike.cons halikes _⟩
    exact bind_eq_ok_iff.mpr ⟨layout', hfirst', bind_eq_ok_iff.mpr ⟨layouts', hrest', rfl⟩⟩

end

end

end Layout

namespace Codec

variable {types : Extensions} {discriminant : String} {schema schema' : Schema} {c : Codec}

/-- Labels and flags may be declared in any order: the schema stays valid, and its codec sizes, encodes
and decodes as before, failures included. -/
theorem ofSchema_permuted (h : ofSchema types discriminant schema = .ok c)
    (hpermuted : schema.Permuted schema') :
    ∃ c', ofSchema types discriminant schema' = .ok c' ∧ c'.fixedSize? = c.fixedSize? ∧
      (∀ v, c'.size v = c.size v ∧ c'.encode v = c.encode v ∧
        ∀ writer, c'.encodeInto v writer = c.encodeInto v writer) ∧
      (∀ bytes, c'.decode bytes = c.decode bytes) ∧
      ∀ cursor, c'.decodeFrom cursor = c.decodeFrom cursor := by
  obtain ⟨hwell, layout, hlayout, rfl⟩ := ofSchema_eq_ok_iff.mp h
  obtain ⟨layout', hlayout', halike⟩ := Layout.alike_of_permuted hpermuted hwell hlayout
  let c' := ofLayout types schema' layout'
  have hcodec : ofSchema types discriminant schema' = .ok c' :=
    ofSchema_eq_ok_iff.mpr ⟨hpermuted.wellFormed hwell, layout', hlayout', rfl⟩
  have hsize : ∀ v, c'.size v = layout.size v := congrFun halike.size_eq
  have hinto : ∀ v writer, c'.encodeInto v writer = (layout.write v).run.run writer := by
    intro v writer
    exact congrArg (fun m : Write Unit => m.run.run writer) (congrFun halike.write_eq v)
  have hfrom : ∀ cursor, c'.decodeFrom cursor = layout.read.run.run cursor := by
    intro cursor
    exact congrArg (fun m : Read Value => m.run.run cursor) halike.read_eq
  refine ⟨c', hcodec, halike.fixedSize?_eq, fun v => ⟨hsize v, ?_, hinto v⟩, fun bytes => ?_, hfrom⟩
  · simp only [encode_eq, hsize, hinto]
    rfl
  · simp only [decode, hfrom]
    rfl

private def dial : Schema :=
  .record [("mode", .enum [("off", 0), ("on", 1)]), ("rights", .bitmask [("read", 0), ("write", 1)])]

private def shuffledDial : Schema :=
  .record [("mode", .enum [("on", 1), ("off", 0)]), ("rights", .bitmask [("write", 1), ("read", 0)])]

private def dialCodec : Codec :=
  .ofLayout ∅ dial (.record [("mode", .enum (.ofList [("off", 0), ("on", 1)])),
    ("rights", .bitmask ["read", "write"])])

private def dialOn : Value :=
  .object [("mode", .string "on"), ("rights", .object [("read", .bool true), ("write", .bool false)])]

/-- A dial whose labels and flags are declared backwards. -/
theorem ofSchema_permuted_dial :
    ofSchema ∅ "type" dial = .ok dialCodec ∧ dial.Permuted shuffledDial ∧
      dialCodec.encode dialOn = .ok [1, 6] ∧ dialCodec.decode [1, 6] = .ok dialOn ∧
      ∃ c', ofSchema ∅ "type" shuffledDial = .ok c' ∧ c'.fixedSize? = some 2 ∧
        c'.encode dialOn = .ok [1, 6] ∧ c'.decode [1, 6] = .ok dialOn := by
  have hcodec : ofSchema ∅ "type" dial = .ok dialCodec := by cbv
  have hpermuted : dial.Permuted shuffledDial :=
    .record (.cons "mode" (.enum (.swap _ _ _)) (.cons "rights" (.bitmask (.swap _ _ _)) .nil))
  have hencode : dialCodec.encode dialOn = .ok [1, 6] := rfl
  have hdecode : dialCodec.decode [1, 6] = .ok dialOn := rfl
  obtain ⟨c', hcodec', hfixed, hvalues, hbytes, -⟩ := ofSchema_permuted hcodec hpermuted
  refine ⟨hcodec, hpermuted, hencode, hdecode, c', hcodec', hfixed, ?_, ?_⟩
  · rw [(hvalues dialOn).2.1, hencode]
  · rw [hbytes, hdecode]

end Codec

end WireSchema
