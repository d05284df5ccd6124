import WireSchema.Proofs.Compiled

/-! A layout has the shape of its schema: where a way leads to a node in the one it leads to a node in
the other. If the schema is valid, the tables of every node say what the node declares. -/

namespace Option

variable {α β γ δ : Type} {R : α → β → Prop}

theorem rel_bind {S : γ → δ → Prop} {f : α → Option γ} {g : β → Option δ} {a : Option α} {b : Option β}
    (h : Rel R a b) (hfg : ∀ x y, R x y → Rel S (f x) (g y)) :
    Rel S (a.bind f) (b.bind g) := by
  cases h with
  | none => exact .none
  | some hxy => exact hfg _ _ hxy

theorem exists_of_rel_some {a : α} {b : Option β} (h : Rel R (some a) b) :
    ∃ b', b = some b' ∧ R a b' := by
  cases h with
  | some hab => exact ⟨_, rfl, hab⟩

theorem rel_imp {S : α → β → Prop} {a : Option α} {b : Option β} (h : Rel R a b)
    (hRS : ∀ x y, a = some x → R x y → S x y) : Rel S a b := by
  cases h with
  | none => exact .none
  | some hxy => exact .some (hRS _ _ rfl hxy)

theorem rel_getElem? {as : List α} {bs : List β} (h : List.Forall₂ R as bs) (i : Nat) :
    Rel R as[i]? bs[i]? := by
  induction h generalizing i with
  | nil => exact .none
  | cons hab _ ih =>
    cases i with
    | zero => exact .some hab
    | succ i => exact ih i

end Option

namespace WireSchema

/-- Where a node stands directly inside another. Fields and variants are counted from zero. -/
inductive Branch where
  | inner
  | element
  | field (place : Nat)
  | variant (index place : Nat)

def Schema.at? : Schema → Branch → Option Schema
  | .optional inner, .inner => some inner
  | .array _ element, .element => some element
  | .record fields, .field place => fields[place]?.map Prod.snd
  | .union variants, .variant index place =>
    variants[index]?.bind fun variant => variant.2[place]?.map Prod.snd
  | _, _ => none

def Layout.at? : Layout → Branch → Option Layout
  | .optional inner, .inner => some inner
  | .array _ element, .element => some element
  | .record fields, .field place => fields[place]?.map Prod.snd
  | .union _ variants _, .variant index place =>
    variants[index]?.bind fun variant => variant.2[place]?.map Prod.snd
  | _, _ => none

/-- The node to which branches lead, one after the other. -/
def Schema.along? (schema : Schema) (way : List Branch) : Option Schema := way.foldlM at? schema

def Layout.along? (layout : Layout) (way : List Branch) : Option Layout := way.foldlM at? layout

theorem Schema.along?_cons (schema : Schema) (branch : Branch) (way : List Branch) :
    schema.along? (branch :: way) = (schema.at? branch).bind fun node => node.along? way :=
  List.foldlM_cons

theorem Layout.along?_cons (layout : Layout) (branch : Branch) (way : List Branch) :
    layout.along? (branch :: way) = (layout.at? branch).bind fun node => node.along? way :=
  List.foldlM_cons

/-- Labels and bytes find each other, and they are the declared ones: every label has its ordinal. -/
structure LabelTable.Holds {α : Type} [BEq α] (table : LabelTable α) (labels : List (α × Int64)) :
    Prop where
  inverse : ∀ label byte,
    table.ordinals.lookup label = some byte ↔ table.labels.lookup byte = some label
  declared : ∀ l ∈ labels, ∃ byte : UInt8,
    table.ordinals.lookup l.1 = some byte ∧ (byte.toNat : Int) = l.2.toInt
  nothing_else : ∀ label byte, table.ordinals.lookup label = some byte →
    ∃ ordinal, (label, ordinal) ∈ labels ∧ (byte.toNat : Int) = ordinal.toInt

section

variable (types : Extensions) (discriminant : String)

def FieldsLaidOut : List (String × Schema) → List (String × Layout) → Prop :=
  List.Forall₂ fun field laid =>
    laid.1 = field.1 ∧ Layout.ofSchema types discriminant field.2 = .ok laid.2

/-- A variant stands at the place of its declaration, with its tag, this place as its index and the layouts of
its fields, and its tag finds the index. No other tag is found. -/
structure VariantsLaidOut (variants : List (String × List (String × Schema)))
    (laid : List (VariantKey × List (String × Layout))) (indices : List (String × UInt8)) : Prop where
  length_eq : laid.length = variants.length
  declared : ∀ i tag fields, variants[i]? = some (tag, fields) → ∃ index inner,
    laid[i]? = some (⟨tag, index⟩, inner) ∧ index.toNat = i ∧
    FieldsLaidOut types discriminant fields inner ∧ indices.lookup tag = some index
  nothing_else : ∀ tag index, indices.lookup tag = some index →
    ∃ fields, variants[index.toNat]? = some (tag, fields)

/-- What a node declares is what its layout holds. What stands inside the node is left aside. -/
def HoldsDeclared : Schema → Layout → Prop
  | .scalar type, .scalar type' => type' = type ∧ types.get? type.name = none
  | .scalar type, .extension name e => name = type.name ∧ types.get? name = some e
  | .custom name, .extension name' e => name' = name ∧ types.get? name = some e
  | .enum labels, .enum table => table.Holds labels
  | .numberEnum labels, .numberEnum table => table.Holds labels ∧ ∀ n byte,
    table.ordinalOfInt? n = some byte ↔ ∃ label, label.toInt = n ∧ table.labels.lookup byte = some label
  | .bitmask flags, .bitmask names => names.length = flags.length ∧ ∀ (i : Nat) name,
    names[i]? = some name ↔ ∃ position, (name, position) ∈ flags ∧ position.toInt = i
  | .optional _, .optional _ => True
  | .array count _, .array count' _ => count' = count
  | .union variants, .union discriminant' laid indices =>
    discriminant' = discriminant ∧ VariantsLaidOut types discriminant variants laid indices
  | .record fields, .record laid => FieldsLaidOut types discriminant fields laid
  | _, _ => False

end

section

variable {types : Extensions} {discriminant : String}

theorem fieldsLaidOut_of_ofFields {fields : List (String × Schema)} {laid : List (String × Layout)}
    (h : Layout.ofFields types discriminant fields = .ok laid) :
    FieldsLaidOut types discriminant fields laid := by
  induction fields generalizing laid with
  | nil =>
    cases h
    exact .nil
  | cons field rest ih =>
    obtain ⟨layout, hlayout, h⟩ := bind_eq_ok_iff.mp h
    obtain ⟨layouts, hlayouts, h⟩ := bind_eq_ok_iff.mp h
    cases h
    exact .cons ⟨rfl, hlayout⟩ (ih hlayouts)

theorem forall₂_of_ofVariants {place : Nat} {variants : List (String × List (String × Schema))}
    {laid : List (VariantKey × List (String × Layout))}
    (h : Layout.ofVariants types discriminant place variants = .ok laid) :
    List.Forall₂ (fun v l => FieldsLaidOut types discriminant v.2 l.2) variants laid := by
  induction variants generalizing place laid with
  | nil =>
    cases h
    exact .nil
  | cons variant rest ih =>
    obtain ⟨layouts, hlayouts, h⟩ := bind_eq_ok_iff.mp h
    obtain ⟨others, hothers, h⟩ := bind_eq_ok_iff.mp h
    cases h
    exact .cons (fieldsLaidOut_of_ofFields hlayouts) (ih hothers)

theorem FieldsLaidOut.rel_getElem? {fields : List (String × Schema)} {laid : List (String × Layout)}
    (h : FieldsLaidOut types discriminant fields laid) (place : Nat) :
    Option.Rel (fun node part => Layout.ofSchema types discriminant node = .ok part)
      (fields[place]?.map Prod.snd) (laid[place]?.map Prod.snd) := by
  rw [Option.map_eq_bind, Option.map_eq_bind]
  exact Option.rel_bind (Option.rel_getElem? h place) fun _ _ hlaid => .some hlaid.2

theorem rel_at? {schema : Schema} {layout : Layout}
    (h : Layout.ofSchema types discriminant schema = .ok layout) (branch : Branch) :
    Option.Rel (fun node part => Layout.ofSchema types discriminant node = .ok part)
      (schema.at? branch) (layout.at? branch) := by
  cases schema with
  | scalar type =>
    rw [Layout.ofSchema] at h
    split at h
    · cases h
      cases branch <;> exact .none
    · cases h
      cases branch <;> exact .none
  | custom name =>
    rw [Layout.ofSchema] at h
    split at h
    · cases h
      cases branch <;> exact .none
    · cases h
  | enum labels | numberEnum labels | bitmask flags =>
    cases h
    cases branch <;> exact .none
  | optional inner =>
    obtain ⟨part, hpart, rfl⟩ := map_eq_ok_iff.mp h
    cases branch with
    | inner => exact .some hpart
    | _ => exact .none
  | array count element =>
    obtain ⟨part, hpart, rfl⟩ := map_eq_ok_iff.mp h
    cases branch with
    | element => exact .some hpart
    | _ => exact .none
  | union variants =>
    obtain ⟨laid, hlaid, h⟩ := bind_eq_ok_iff.mp h
    cases h
    cases branch with
    | variant index place =>
      apply Option.rel_bind (Option.rel_getElem? (forall₂_of_ofVariants hlaid) index)
      exact fun _ _ hvariant => hvariant.rel_getElem? place
    | _ => exact .none
  | record fields =>
    obtain ⟨laid, hlaid, rfl⟩ := map_eq_ok_iff.mp h
    cases branch with
    | field place => exact (fieldsLaidOut_of_ofFields hlaid).rel_getElem? place
    | _ => exact .none

theorem rel_along? (way : List Branch) {schema : Schema} {layout : Layout}
    (h : Layout.ofSchema types discriminant schema = .ok layout) :
    Option.Rel (fun node part => Layout.ofSchema types discriminant node = .ok part)
      (schema.along? way) (layout.along? way) := by
  induction way generalizing schema layout with
  | nil => exact .some h
  | cons branch way ih =>
    rw [Schema.along?_cons, Layout.along?_cons]
    exact Option.rel_bind (rel_at? h branch) fun _ _ hpart => ih hpart

theorem child_of_at? {schema node : Schema} {branch : Branch} (h : schema.at? branch = some node) :
    Schema.Child node schema := by
  cases schema with
  | optional inner =>
    cases branch with
    | inner =>
      cases h
      exact .optional _
    | _ => cases h
  | array count element =>
    cases branch with
    | element =>
      cases h
      exact .element count _
    | _ => cases h
  | union variants =>
    cases branch with
    | variant index place =>
      obtain ⟨variant, hvariant, h⟩ := Option.bind_eq_some_iff.mp h
      obtain ⟨field, hfield, rfl⟩ := Option.map_eq_some_iff.mp h
      exact .variant (List.mem_of_getElem? hvariant) (List.mem_of_getElem? hfield)
    | _ => cases h
  | record fields =>
    cases branch with
    | field place =>
      obtain ⟨field, hfield, rfl⟩ := Option.map_eq_some_iff.mp h
      exact .field (List.mem_of_getElem? hfield)
    | _ => cases h
  | _ => cases branch <;> cases h

theorem exists_at?_of_child {schema node : Schema} (h : Schema.Child node schema) :
    ∃ branch, schema.at? branch = some node := by
  cases h with
  | optional inner => exact ⟨.inner, rfl⟩
  | element count element => exact ⟨.element, rfl⟩
  | @variant _ variant field hvariant hfield =>
    obtain ⟨index, hindex⟩ := List.mem_iff_getElem?.mp hvariant
    obtain ⟨place, hplace⟩ := List.mem_iff_getElem?.mp hfield
    refine ⟨.variant index place, Option.bind_eq_some_iff.mpr ⟨variant, hindex, ?_⟩⟩
    rw [hplace, Option.map_some]
  | @field _ field hfield =>
    obtain ⟨place, hplace⟩ := List.mem_iff_getElem?.mp hfield
    exact ⟨.field place, Option.map_eq_some_iff.mpr ⟨field, hplace, rfl⟩⟩

theorem below_iff_exists_along? {schema node : Schema} :
    Relation.ReflTransGen Schema.Child node schema ↔ ∃ way, schema.along? way = some node := by
  constructor
  · intro h
    induction h with
    | refl => exact ⟨[], rfl⟩
    | tail _ hchild ih =>
      obtain ⟨way, hway⟩ := ih
      obtain ⟨branch, hbranch⟩ := exists_at?_of_child hchild
      exact ⟨branch :: way, by rw [Schema.along?_cons, hbranch, Option.bind_some, hway]⟩
  · rintro ⟨way, h⟩
    induction way generalizing schema with
    | nil =>
      cases h
      exact .refl
    | cons branch way ih =>
      rw [Schema.along?_cons] at h
      obtain ⟨child, hchild, h⟩ := Option.bind_eq_some_iff.mp h
      exact (ih h).tail (child_of_at? hchild)

theorem holds_labelTable {α : Type} [BEq α] [LawfulBEq α] {labels : List (α × Int64)}
    (h : Schema.LabelsFit labels) : (Layout.labelTable labels).Holds labels where
  inverse _ _ := (Layout.lookup_labels_labelTable h).symm
  declared l hl := by
    have hrange := h.range l hl
    have hlookup : labels.lookup l.1 = some l.2 :=
      (Assoc.lookup_eq_some_iff_mem h.labels_nodup).mpr hl
    refine ⟨Layout.ordinalByte l.2, ?_, ?_⟩
    · rw [Layout.lookup_ordinals_labelTable h, hlookup, Option.map_some]
    · rw [Layout.toNat_ordinalByte hrange]
      omega
  nothing_else label byte hbyte := by
    rw [Layout.lookup_ordinals_labelTable h] at hbyte
    obtain ⟨ordinal, hordinal, rfl⟩ := Option.map_eq_some_iff.mp hbyte
    have hmem := Assoc.mem_of_lookup hordinal
    have hrange : 0 ≤ ordinal.toInt ∧ ordinal.toInt ≤ 255 := h.range _ hmem
    refine ⟨ordinal, hmem, ?_⟩
    rw [Layout.toNat_ordinalByte hrange]
    omega

theorem ordinalOfInt?_eq_some_iff {table : LabelTable Int32} {n : Int} {byte : UInt8} :
    table.ordinalOfInt? n = some byte ↔
      ∃ label, label.toInt = n ∧ table.ordinals.lookup label = some byte := by
  unfold LabelTable.ordinalOfInt?
  constructor
  · intro h
    split at h
    · rename_i hn
      exact ⟨_, hn, h⟩
    · cases h
  · rintro ⟨label, rfl, h⟩
    rwa [label.ofInt_toInt, if_pos rfl]

/-- A variant has the tag of its declaration and its place as its index. -/
theorem key_of_ofVariants {place i : Nat} {variants : List (String × List (String × Schema))}
    {laid : List (VariantKey × List (String × Layout))}
    (h : Layout.ofVariants types discriminant place variants = .ok laid) {tag : String}
    {fields : List (String × Schema)} (hdeclared : variants[i]? = some (tag, fields)) {key : VariantKey}
    {inner : List (String × Layout)} (hlaid : laid[i]? = some (key, inner)) :
    key = ⟨tag, UInt8.ofNat (place + i)⟩ := by
  obtain ⟨tag', index⟩ := key
  have hkey := congrArg (fun keys => keys[i]?) (tagIndices_of_ofVariants h)
  simpa [Layout.tagIndices, Layout.placeIndices, hdeclared, hlaid] using hkey

theorem variantsLaidOut_of_ofVariants {variants : List (String × List (String × Schema))}
    {laid : List (VariantKey × List (String × Layout))} (htags : (variants.map Prod.fst).Nodup)
    (hfew : variants.length ≤ 256) (h : Layout.ofVariants types discriminant 0 variants = .ok laid) :
    VariantsLaidOut types discriminant variants laid
      (Assoc.ofList (Layout.tagIndices (laid.map Prod.fst))) := by
  have hlaid := forall₂_of_ofVariants h
  rw [tagIndices_of_ofVariants h, ofList_placeIndices htags]
  refine ⟨hlaid.length_eq.symm, fun i tag fields hi => ?_, fun tag index hindex => ?_⟩
  · have hvariant := Option.rel_getElem? hlaid i
    rw [hi] at hvariant
    obtain ⟨⟨key, inner⟩, hplace, hinner⟩ := Option.exists_of_rel_some hvariant
    obtain rfl := key_of_ofVariants h hi hplace
    rw [Nat.zero_add] at hplace
    have hlt : i < variants.length := (List.getElem?_eq_some_iff.mp hi).1
    have hbyte : (UInt8.ofNat i).toNat = i := UInt8.toNat_ofNat_of_lt' (hlt.trans_le hfew)
    refine ⟨UInt8.ofNat i, inner, hplace, hbyte, hinner, ?_⟩
    apply (lookup_placeIndices_iff htags (by rwa [List.length_map])).mpr
    rw [hbyte, List.getElem?_map, hi, Option.map_some]
  · have hplace := (lookup_placeIndices_iff htags (by rwa [List.length_map])).mp hindex
    rw [List.getElem?_map] at hplace
    obtain ⟨variant, hvariant, rfl⟩ := Option.map_eq_some_iff.mp hplace
    exact ⟨variant.2, hvariant⟩

theorem holdsDeclared_of_keepsRules {node : Schema} {part : Layout}
    (hrules : node.KeepsRules types discriminant)
    (h : Layout.ofSchema types discriminant node = .ok part) :
    HoldsDeclared types discriminant node part := by
  cases node with
  | scalar type =>
    rw [Layout.ofSchema] at h
    split at h
    · rename_i e he
      cases h
      exact ⟨rfl, he⟩
    · rename_i hnone
      cases h
      exact ⟨rfl, hnone⟩
  | custom name =>
    rw [Layout.ofSchema] at h
    split at h
    · rename_i e he
      cases h
      exact ⟨rfl, he⟩
    · cases h
  | enum labels =>
    cases h
    exact holds_labelTable hrules
  | numberEnum labels =>
    cases h
    have htable := holds_labelTable hrules
    refine ⟨htable, fun n byte => ordinalOfInt?_eq_some_iff.trans ?_⟩
    exact exists_congr fun label => and_congr_right fun _ => htable.inverse label byte
  | bitmask flags =>
    cases h
    have hfit := Schema.flagsFit_iff.mpr hrules
    refine ⟨?_, fun i name => Layout.getElem?_orderedFlags_iff hfit⟩
    rw [Layout.orderedFlags_eq_flagNames hfit, Layout.length_flagNames hfit]
  | optional inner =>
    obtain ⟨part, -, rfl⟩ := map_eq_ok_iff.mp h
    exact trivial
  | array count element =>
    obtain ⟨part, -, rfl⟩ := map_eq_ok_iff.mp h
    rfl
  | union variants =>
    obtain ⟨laid, hlaid, h⟩ := bind_eq_ok_iff.mp h
    cases h
    exact ⟨rfl, variantsLaidOut_of_ofVariants hrules.2.1 hrules.1.2 hlaid⟩
  | record fields =>
    obtain ⟨laid, hlaid, rfl⟩ := map_eq_ok_iff.mp h
    exact fieldsLaidOut_of_ofFields hlaid

end

namespace Layout

/-- A valid schema has a layout, and ways lead to all of its nodes. At the end of every way the two have a node
each or none. The node of the layout is then the layout of the node of the schema, and its tables hold what
that node declares. -/
theorem exists_holdsDeclared (types : Extensions) (discriminant : String) {schema : Schema}
    (h : schema.check types discriminant = .ok ()) :
    ∃ layout, ofSchema types discriminant schema = .ok layout ∧
      (∀ node, Relation.ReflTransGen Schema.Child node schema ↔ ∃ way, schema.along? way = some node) ∧
      ∀ way, Option.Rel (fun node part => ofSchema types discriminant node = .ok part ∧
        HoldsDeclared types discriminant node part) (schema.along? way) (layout.along? way) := by
  have hwell := Schema.checkAt_eq_ok_iff.mp h
  obtain ⟨layout, hlayout⟩ := Schema.exists_layout_of_wellFormed hwell
  refine ⟨layout, hlayout, fun node => below_iff_exists_along?, fun way => ?_⟩
  apply Option.rel_imp (rel_along? way hlayout)
  intro node part hnode hlaid
  have hrules := hwell node (below_iff_exists_along?.mpr ⟨way, hnode⟩)
  exact ⟨hlaid, holdsDeclared_of_keepsRules hrules hlaid⟩

private def desk : Schema :=
  .record [("lamp", .optional (.enum [("off", 7), ("on", 200)])),
    ("drawers", .array .two (.union [("locked", [("key", .numberEnum [(300, 1), (-5, 255)])]),
      ("open", [("sides", .bitmask [("right", 1), ("left", 0)])])]))]

/-- Two nodes inside the variants of a union that is the element of an array. -/
theorem exists_holdsDeclared_desk :
    desk.check ∅ "type" = .ok () ∧ ∃ layout, ofSchema ∅ "type" desk = .ok layout ∧
      layout.along? [.field 1, .element, .variant 1 0] = some (.bitmask ["left", "right"]) ∧
      ∃ table, layout.along? [.field 1, .element, .variant 0 0] = some (.numberEnum table) ∧
        table.Holds [(300, 1), (-5, 255)] := by
  have hvalid : desk.check ∅ "type" = .ok () := rfl
  obtain ⟨layout, hlayout, -, hall⟩ := exists_holdsDeclared ∅ "type" hvalid
  refine ⟨hvalid, layout, hlayout, ?_, ?_⟩
  · obtain ⟨part, hpart, hlaid, -⟩ :=
      Option.exists_of_rel_some (hall [.field 1, .element, .variant 1 0])
    cases hlaid
    rw [hpart]
    simp [orderedFlags, List.mergeSort, List.MergeSort.Internal.splitInTwo]
  · obtain ⟨part, hpart, hlaid, hholds⟩ :=
      Option.exists_of_rel_some (hall [.field 1, .element, .variant 0 0])
    cases hlaid
    exact ⟨_, hpart, hholds.1⟩

end Layout

end WireSchema
