import WireSchema.Proofs.WellFormed

/-! `Compiles` relates a well-formed schema to its layout and holds, at every node, what being
well-formed guarantees there. What follows is proved by recursion on it and never looks at the checks
again. -/

namespace WireSchema

namespace Schema

def leafName? : Schema → Option String
  | .scalar type => some type.name
  | .custom name => some name
  | _ => none

end Schema

/-- The indices of tags: their places, from `place` on. -/
def Layout.placeIndices (place : Nat) (tags : List String) : List (String × UInt8) :=
  (tags.zipIdx place).map fun (tag, i) => (tag, UInt8.ofNat i)

open Schema Layout

mutual

/-- The layout of a valid schema whose extensions all satisfy `E`. -/
inductive Compiles (E : Extension → Prop) (discriminant : String) : Schema → Layout → Prop
  | scalar (type : Scalar) : Compiles E discriminant (.scalar type) (.scalar type)
  | extension {schema : Schema} {name : String} {e : Extension} :
      schema.leafName? = some name → E e → Compiles E discriminant schema (.extension name e)
  | enum {labels : List (String × Int64)} :
      LabelsFit labels → Compiles E discriminant (.enum labels) (.enum (labelTable labels))
  | numberEnum {labels : List (Int32 × Int64)} :
      LabelsFit labels → Compiles E discriminant (.numberEnum labels) (.numberEnum (labelTable labels))
  | bitmask {flags : List (String × Int64)} :
      FlagsFit flags → Compiles E discriminant (.bitmask flags) (.bitmask (flagNames flags))
  | optional {schema : Schema} {layout : Layout} : schema.isOptional = false →
      Compiles E discriminant schema layout →
      Compiles E discriminant (.optional schema) (.optional layout)
  | array {count : CountWidth} {schema : Schema} {layout : Layout} :
      Compiles E discriminant schema layout →
      Compiles E discriminant (.array count schema) (.array count layout)
  | union {variants : List (String × List (String × Schema))}
      {layouts : List (VariantKey × List (String × Layout))} : variants ≠ [] →
      variants.length ≤ maxVariants → (variants.map Prod.fst).Nodup →
      CompilesVariants E discriminant variants layouts →
      Compiles E discriminant (.union variants)
        (.union discriminant layouts (placeIndices 0 (variants.map Prod.fst)))
  | record {fields : List (String × Schema)} {layouts : List (String × Layout)} :
      (fields.map Prod.fst).Nodup → CompilesFields E discriminant fields layouts →
      Compiles E discriminant (.record fields) (.record layouts)

inductive CompilesFields (E : Extension → Prop) (discriminant : String) :
    List (String × Schema) → List (String × Layout) → Prop
  | nil : CompilesFields E discriminant [] []
  | cons {name : String} {schema : Schema} {layout : Layout} {fields : List (String × Schema)}
      {layouts : List (String × Layout)} : Compiles E discriminant schema layout →
      CompilesFields E discriminant fields layouts →
      CompilesFields E discriminant ((name, schema) :: fields) ((name, layout) :: layouts)

inductive CompilesVariants (E : Extension → Prop) (discriminant : String) :
    List (String × List (String × Schema)) → List (VariantKey × List (String × Layout)) → Prop
  | nil : CompilesVariants E discriminant [] []
  -- Any index will do beside the tag: what is written and read goes by the table of the union.
  | cons {tag : String} {index : UInt8} {fields : List (String × Schema)}
      {layouts : List (String × Layout)} {variants : List (String × List (String × Schema))}
      {others : List (VariantKey × List (String × Layout))} :
      (discriminant :: fields.map Prod.fst).Nodup → CompilesFields E discriminant fields layouts →
      CompilesVariants E discriminant variants others →
      CompilesVariants E discriminant ((tag, fields) :: variants) ((⟨tag, index⟩, layouts) :: others)

end

section

variable {types : Extensions} {discriminant : String} {E : Extension → Prop}

theorem CompilesVariants.tags_eq {variants : List (String × List (String × Schema))}
    {layouts : List (VariantKey × List (String × Layout))}
    (h : CompilesVariants E discriminant variants layouts) :
    layouts.map (fun l => l.1.tag) = variants.map Prod.fst := by
  induction variants generalizing layouts with
  | nil =>
    cases h
    rfl
  | cons v variants ih =>
    cases h with
    | cons _ _ hrest => rw [List.map_cons, List.map_cons, ih hrest]

theorem CompilesVariants.length_eq {variants : List (String × List (String × Schema))}
    {layouts : List (VariantKey × List (String × Layout))}
    (h : CompilesVariants E discriminant variants layouts) : layouts.length = variants.length := by
  rw [← layouts.length_map fun l => l.1.tag, h.tags_eq, List.length_map]

theorem CompilesVariants.tag_ne {variants : List (String × List (String × Schema))}
    {layouts : List (VariantKey × List (String × Layout))} {t : String} {key : VariantKey}
    {place : Nat} {variant : List (String × Layout)}
    (h : CompilesVariants E discriminant variants layouts) (ht : t ∉ variants.map Prod.fst)
    (hget : layouts[place]? = some (key, variant)) : t ≠ key.tag := by
  rintro rfl
  apply ht
  rw [← h.tags_eq]
  exact List.mem_map.mpr ⟨_, List.mem_of_getElem? hget, rfl⟩

theorem mem_placeIndices_iff {tags : List String} {tag : String} {index : UInt8} :
    (tag, index) ∈ placeIndices 0 tags ↔ ∃ i, tags[i]? = some tag ∧ UInt8.ofNat i = index := by
  simp only [placeIndices, List.mem_map, Prod.exists, List.mk_mem_zipIdx_iff_getElem?, Prod.mk.injEq]
  constructor
  · rintro ⟨_, i, hi, rfl, hindex⟩
    exact ⟨i, hi, hindex⟩
  · rintro ⟨i, hi, hindex⟩
    exact ⟨tag, i, hi, rfl, hindex⟩

theorem keys_placeIndices (place : Nat) (tags : List String) :
    (placeIndices place tags).map Prod.fst = tags := by
  rw [placeIndices, List.map_map]
  exact List.zipIdx_map_fst place tags

theorem ofList_placeIndices {place : Nat} {tags : List String} (h : tags.Nodup) :
    Assoc.ofList (placeIndices place tags) = placeIndices place tags := by
  apply Assoc.ofList_of_nodup
  rwa [keys_placeIndices]

/-- The byte of a tag is its place. -/
theorem lookup_placeIndices_iff {tags : List String} (h : tags.Nodup) (hfew : tags.length ≤ 256)
    {tag : String} {index : UInt8} :
    (placeIndices 0 tags).lookup tag = some index ↔ tags[index.toNat]? = some tag := by
  rw [Assoc.lookup_eq_some_iff_mem (by rwa [keys_placeIndices]), mem_placeIndices_iff]
  constructor
  · rintro ⟨i, hget, rfl⟩
    obtain ⟨hlt, -⟩ := List.getElem?_eq_some_iff.mp hget
    have hplace : (UInt8.ofNat i).toNat = i := UInt8.toNat_ofNat_of_lt' (hlt.trans_le hfew)
    rwa [hplace]
  · intro hget
    exact ⟨index.toNat, hget, UInt8.ofNat_toNat⟩

theorem tagIndices_of_ofVariants {place : Nat} {variants : List (String × List (String × Schema))}
    {layouts : List (VariantKey × List (String × Layout))}
    (h : ofVariants types discriminant place variants = .ok layouts) :
    tagIndices (layouts.map Prod.fst) = placeIndices place (variants.map Prod.fst) := by
  induction variants generalizing place layouts with
  | nil =>
    cases h
    rfl
  | cons variant rest ih =>
    obtain ⟨inner, -, h⟩ := bind_eq_ok_iff.mp h
    obtain ⟨others, hothers, h⟩ := bind_eq_ok_iff.mp h
    cases h
    exact congrArg (List.cons _) (ih hothers)

theorem length_of_ofVariants {place : Nat} {variants : List (String × List (String × Schema))}
    {layouts : List (VariantKey × List (String × Layout))}
    (h : ofVariants types discriminant place variants = .ok layouts) :
    layouts.length = variants.length := by
  simpa [tagIndices, placeIndices] using congrArg List.length (tagIndices_of_ofVariants h)

mutual

theorem compiles_of_wellFormed : ∀ {schema : Schema} {layout : Layout},
    schema.WellFormed types discriminant → Layout.ofSchema types discriminant schema = .ok layout →
    (∀ name ∈ layout.extensionNames, ∀ e, types.get? name = some e → E e) →
    Compiles E discriminant schema layout
  | .scalar type, layout, _, hl, hE => by
    rw [Layout.ofSchema] at hl
    split at hl
    · rename_i e he
      cases hl
      exact .extension rfl (hE _ List.mem_cons_self e he)
    · cases hl
      exact .scalar type
  | .custom name, layout, _, hl, hE => by
    rw [Layout.ofSchema] at hl
    split at hl
    · rename_i e he
      cases hl
      exact .extension rfl (hE _ List.mem_cons_self e he)
    · cases hl
  | .enum labels, layout, h, hl, _ => by
    cases hl
    exact .enum (wellFormed_iff.mp h).1
  | .numberEnum labels, layout, h, hl, _ => by
    cases hl
    exact .numberEnum (wellFormed_iff.mp h).1
  | .bitmask flags, layout, h, hl, _ => by
    have hfit : FlagsFit flags := flagsFit_iff.mpr (wellFormed_iff.mp h).1
    rw [Layout.ofSchema, orderedFlags_eq_flagNames hfit] at hl
    cases hl
    exact .bitmask hfit
  | .optional inner, layout, h, hl, hE => by
    rw [wellFormed_optional_iff] at h
    rw [Layout.ofSchema, map_eq_ok_iff] at hl
    obtain ⟨layout, hl, rfl⟩ := hl
    exact .optional h.1 (compiles_of_wellFormed h.2 hl hE)
  | .array count element, layout, h, hl, hE => by
    rw [wellFormed_array_iff] at h
    rw [Layout.ofSchema, map_eq_ok_iff] at hl
    obtain ⟨layout, hl, rfl⟩ := hl
    exact .array (compiles_of_wellFormed h hl hE)
  | .union variants, layout, h, hl, hE => by
    obtain ⟨⟨hpos, hmany⟩, htags, hfields⟩ := wellFormed_union_iff.mp h
    rw [Layout.ofSchema, bind_eq_ok_iff] at hl
    obtain ⟨layouts, hl, hlayout⟩ := hl
    cases hlayout
    have hvariants := compilesVariants_of_wellFormed hfields hl hE
    rw [tagIndices_of_ofVariants hl, ofList_placeIndices htags]
    exact .union (List.length_pos_iff.mp hpos) hmany htags hvariants
  | .record fields, layout, h, hl, hE => by
    rw [wellFormed_record_iff] at h
    rw [Layout.ofSchema, map_eq_ok_iff] at hl
    obtain ⟨layouts, hl, rfl⟩ := hl
    exact .record h.1 (compilesFields_of_wellFormed h.2 hl hE)

theorem compilesFields_of_wellFormed : ∀ {fields : List (String × Schema)}
    {layouts : List (String × Layout)}, (∀ f ∈ fields, f.2.WellFormed types discriminant) →
    Layout.ofFields types discriminant fields = .ok layouts →
    (∀ name ∈ fieldsExtensionNames layouts, ∀ e, types.get? name = some e → E e) →
    CompilesFields E discriminant fields layouts
  | [], layouts, _, hl, _ => by
    cases hl
    exact .nil
  | (name, schema) :: rest, layouts, h, hl, hE => by
    rw [List.forall_mem_cons] at h
    rw [Layout.ofFields, bind_eq_ok_iff] at hl
    obtain ⟨layout, hlayout, hl⟩ := hl
    obtain ⟨layouts, hrest, hl⟩ := bind_eq_ok_iff.mp hl
    cases hl
    simp only [fieldsExtensionNames, List.mem_append] at hE
    exact .cons (compiles_of_wellFormed h.1 hlayout fun n hn => hE n (Or.inl hn))
      (compilesFields_of_wellFormed h.2 hrest fun n hn => hE n (Or.inr hn))

theorem compilesVariants_of_wellFormed : ∀ {place : Nat}
    {variants : List (String × List (String × Schema))}
    {layouts : List (VariantKey × List (String × Layout))},
    (∀ v ∈ variants, (discriminant ∉ v.2.map Prod.fst ∧ (v.2.map Prod.fst).Nodup) ∧
      ∀ f ∈ v.2, f.2.WellFormed types discriminant) →
    Layout.ofVariants types discriminant place variants = .ok layouts →
    (∀ name ∈ variantsExtensionNames layouts, ∀ e, types.get? name = some e → E e) →
    CompilesVariants E discriminant variants layouts
  | _, [], layouts, _, hl, _ => by
    cases hl
    exact .nil
  | _, (tag, fields) :: rest, layouts, h, hl, hE => by
    rw [List.forall_mem_cons] at h
    obtain ⟨⟨hnames, hfields⟩, hrest⟩ := h
    rw [Layout.ofVariants, bind_eq_ok_iff] at hl
    obtain ⟨layout, hlayout, hl⟩ := hl
    obtain ⟨layouts, hothers, hl⟩ := bind_eq_ok_iff.mp hl
    cases hl
    simp only [variantsExtensionNames, List.mem_append] at hE
    exact .cons (List.nodup_cons.mpr hnames)
      (compilesFields_of_wellFormed hfields hlayout fun n hn => hE n (Or.inl hn))
      (compilesVariants_of_wellFormed hrest hothers fun n hn => hE n (Or.inr hn))

end

mutual

theorem Compiles.mono {E' : Extension → Prop} (hE : ∀ e, E e → E' e) :
    ∀ {schema : Schema} {layout : Layout},
    Compiles E discriminant schema layout → Compiles E' discriminant schema layout
  | _, _, .scalar type => .scalar type
  | _, _, .extension hname he => .extension hname (hE _ he)
  | _, _, .enum h => .enum h
  | _, _, .numberEnum h => .numberEnum h
  | _, _, .bitmask h => .bitmask h
  | _, _, .optional hopt h => .optional hopt (h.mono hE)
  | _, _, .array h => .array (h.mono hE)
  | _, _, .union hne hmany htags h => .union hne hmany htags (h.mono hE)
  | _, _, .record hnames h => .record hnames (h.mono hE)

theorem CompilesFields.mono {E' : Extension → Prop} (hE : ∀ e, E e → E' e) :
    ∀ {fields : List (String × Schema)} {layouts : List (String × Layout)},
    CompilesFields E discriminant fields layouts → CompilesFields E' discriminant fields layouts
  | _, _, .nil => .nil
  | _, _, .cons h hs => .cons (h.mono hE) (hs.mono hE)

theorem CompilesVariants.mono {E' : Extension → Prop} (hE : ∀ e, E e → E' e) :
    ∀ {variants : List (String × List (String × Schema))}
    {layouts : List (VariantKey × List (String × Layout))},
    CompilesVariants E discriminant variants layouts → CompilesVariants E' discriminant variants layouts
  | _, _, .nil => .nil
  | _, _, .cons hnames h hs => .cons hnames (h.mono hE) (hs.mono hE)

end

mutual

theorem Compiles.extensionNames_eq_nil : ∀ {schema : Schema} {layout : Layout},
    Compiles (fun _ => False) discriminant schema layout → layout.extensionNames = []
  | _, _, .scalar _ | _, _, .enum _ | _, _, .numberEnum _ | _, _, .bitmask _ => rfl
  | _, _, .optional _ h | _, _, .array h => h.extensionNames_eq_nil
  | _, _, .union _ _ _ h => h.extensionNames_eq_nil
  | _, _, .record _ h => h.extensionNames_eq_nil

theorem CompilesFields.extensionNames_eq_nil : ∀ {fields : List (String × Schema)}
    {layouts : List (String × Layout)}, CompilesFields (fun _ => False) discriminant fields layouts →
    fieldsExtensionNames layouts = []
  | _, _, .nil => rfl
  | _, _, .cons h hs => by
    rw [fieldsExtensionNames, h.extensionNames_eq_nil, hs.extensionNames_eq_nil]
    rfl

theorem CompilesVariants.extensionNames_eq_nil : ∀ {variants : List (String × List (String × Schema))}
    {layouts : List (VariantKey × List (String × Layout))},
    CompilesVariants (fun _ => False) discriminant variants layouts →
    variantsExtensionNames layouts = []
  | _, _, .nil => rfl
  | _, _, .cons _ h hs => by
    rw [variantsExtensionNames, h.extensionNames_eq_nil, hs.extensionNames_eq_nil]
    rfl

end

end

namespace Codec

variable {types : Extensions} {discriminant : String} {schema : Schema} {c : Codec}

/-- Whether no leaf is a custom type. -/
def IsPlain (c : Codec) : Prop := c.layout.extensionNames = []

theorem compiles {E : Extension → Prop} (h : ofSchema types discriminant schema = .ok c)
    (hE : ∀ name ∈ c.layout.extensionNames, ∀ e, types.get? name = some e → E e) :
    Compiles E discriminant schema c.layout := by
  obtain ⟨hwell, layout, hlayout, rfl⟩ := ofSchema_eq_ok_iff.mp h
  exact compiles_of_wellFormed hwell hlayout hE

theorem IsPlain.compiles {E : Extension → Prop} (hplain : c.IsPlain)
    (h : ofSchema types discriminant schema = .ok c) :
    Compiles E discriminant schema c.layout := by
  apply Codec.compiles h
  intro name hname
  rw [hplain] at hname
  contradiction

theorem isPlain_of_empty (h : ofSchema ∅ discriminant schema = .ok c) : c.IsPlain := by
  have hc : Compiles (fun _ => False) discriminant schema c.layout :=
    Codec.compiles h fun _ _ _ he => (nomatch he)
  exact hc.extensionNames_eq_nil

end Codec

end WireSchema
