import WireSchema.Proofs.NormalForm
import WireSchema.Proofs.Rationals

/-! A path of fields and elements leads into a value along its schema. The normal form of a value has
the same leaves at the same places, each in the normal form of its own type. -/

namespace WireSchema

namespace Schema

/-- The schema under the optionals around it, unless the value is absent. -/
def present? : Schema → Value → Option Schema
  | .optional inner, v => if v.isNull then none else present? inner v
  | schema, _ => some schema

/-- The fields that are declared for an object: those of a record, or those of the variant that the object
names. -/
def declared? (discriminant : String) :
    Schema → List (String × Value) → Option (List (String × Schema))
  | .record schemas, _ => some schemas
  | .union variants, fields => do variants.lookup (← (← fields.lookup discriminant).toString?)
  | _, _ => none

def child? (discriminant : String) : Schema → Value → Step → Option (Schema × Value)
  | .array _ element, v, .element i => (v.items?.bind (·[i]?)).map fun item => (element, item)
  | _, _, .element _ => none
  | schema, v, .field name => do
    let fields ← v.fields?
    let schemas ← declared? discriminant schema fields
    (schemas.lookup name).map fun inner => (inner, Value.field fields name)

/-- The scalar at the end of a path into a value. -/
def leafAt? (discriminant : String) : List Step → Schema → Value → Option Leaf
  | [], schema, v => do
    match ← present? schema v with
    | .scalar type => return (type, v)
    | _ => none
  | step :: path, schema, v => do
    let (inner, part) ← child? discriminant (← present? schema v) v step
    leafAt? discriminant path inner part

variable {discriminant : String}

theorem child?_array (count : CountWidth) (element : Schema) (items : List Value) (i : Nat) :
    child? discriminant (.array count element) (.array items) (.element i) =
      items[i]?.map fun item => (element, item) := rfl

theorem child?_field (schema : Schema) (fields : List (String × Value)) (name : String) :
    child? discriminant schema (.object fields) (.field name) =
      (declared? discriminant schema fields).bind fun schemas =>
        (schemas.lookup name).map fun inner => (inner, Value.field fields name) := by
  cases schema <;> rfl

theorem child?_field_of_declared?_eq_none {schema : Schema}
    (h : ∀ fields, declared? discriminant schema fields = none) (v : Value) (name : String) :
    child? discriminant schema v (.field name) = none := by
  cases v with
  | object fields => rw [child?_field, h, Option.bind_none]
  | _ => cases schema <;> rfl

theorem isFinite_of_child? {schema : Schema} {v : Value} {step : Step} {part : Schema × Value}
    (h : child? discriminant schema v step = some part) (hv : v.isFinite = true) :
    part.2.isFinite = true := by
  cases step with
  | element i =>
    cases schema with
    | array count element =>
      obtain ⟨item, hitem, rfl⟩ := Option.map_eq_some_iff.mp h
      obtain ⟨items, hitems, hget⟩ := Option.bind_eq_some_iff.mp hitem
      obtain rfl := Value.items?_eq_some_iff.mp hitems
      exact Value.isFinite_array_iff.mp hv item (List.mem_of_getElem? hget)
    | _ => cases h
  | field name =>
    cases v with
    | object fields =>
      rw [child?_field] at h
      obtain ⟨schemas, -, h⟩ := Option.bind_eq_some_iff.mp h
      obtain ⟨inner, -, rfl⟩ := Option.map_eq_some_iff.mp h
      exact Value.isFinite_field hv name
    | _ => cases schema <;> cases h

theorem isFinite_of_leafAt? {path : List Step} {schema : Schema} {v : Value} {leaf : Leaf}
    (h : schema.leafAt? discriminant path v = some leaf) (hv : v.isFinite = true) :
    leaf.2.isFinite = true := by
  induction path generalizing schema v with
  | nil =>
    obtain ⟨inner, -, h⟩ := Option.bind_eq_some_iff.mp h
    cases inner with
    | scalar type =>
      cases h
      exact hv
    | _ => cases h
  | cons step path ih =>
    obtain ⟨inner, -, h⟩ := Option.bind_eq_some_iff.mp h
    obtain ⟨part, hpart, h⟩ := Option.bind_eq_some_iff.mp h
    exact ih h (isFinite_of_child? hpart hv)

end Schema

namespace Layout

open Schema

section

variable {discriminant : String}

theorem exists_compiles_of_lookup {schemas : List (String × Schema)}
    {layouts : List (String × Layout)} {E : Extension → Prop}
    (h : CompilesFields E discriminant schemas layouts) {name : String} {schema : Schema}
    (hname : schemas.lookup name = some schema) :
    ∃ layout, Compiles E discriminant schema layout := by
  induction schemas generalizing layouts with
  | nil => cases hname
  | cons f rest ih =>
    cases h with
    | @cons first _ layout _ _ hfirst hrest =>
      rw [List.lookup_cons] at hname
      cases hfound : name == first with
      | true =>
        rw [hfound] at hname
        cases hname
        exact ⟨layout, hfirst⟩
      | false =>
        rw [hfound] at hname
        exact ih hrest hname

theorem exists_bytes?_of_lookup {schemas : List (String × Schema)} {fields : List (String × Value)}
    {out : List UInt8} (hout : fieldsBytes? discriminant schemas fields = some out) {name : String}
    {schema : Schema} (hname : schemas.lookup name = some schema) :
    ∃ part, schema.bytes? discriminant (Value.field fields name) = some part := by
  induction schemas generalizing out with
  | nil => cases hname
  | cons f rest ih =>
    obtain ⟨first, others, hfirst, hothers, -⟩ := fieldsBytes?_cons_iff.mp hout
    rw [List.lookup_cons] at hname
    cases hfound : name == f.1 with
    | true =>
      rw [hfound] at hname
      cases hname
      rw [eq_of_beq hfound]
      exact ⟨first, hfirst⟩
    | false =>
      rw [hfound] at hname
      exact ih hothers hname

theorem field_normalFields {schemas : List (String × Schema)} (front fields : List (String × Value))
    (hnames : (front.map Prod.fst ++ schemas.map Prod.fst).Nodup) {name : String} {schema : Schema}
    (hname : schemas.lookup name = some schema) :
    Value.field (front ++ normalFields discriminant schemas fields) name =
      schema.normal discriminant (Value.field fields name) := by
  induction schemas generalizing front with
  | nil => cases hname
  | cons f rest ih =>
    obtain ⟨first, inner⟩ := f
    rw [normalFields]
    rw [List.lookup_cons] at hname
    cases hfound : name == first with
    | true =>
      rw [hfound] at hname
      cases hname
      rw [eq_of_beq hfound, field_front hnames]
    | false =>
      rw [hfound] at hname
      have hrest := ih _ (nodup_front hnames (inner.normal discriminant (Value.field fields first))) hname
      rwa [List.append_assoc, List.singleton_append] at hrest

theorem exists_variant {variants : List (String × List (String × Schema))}
    {layouts : List (VariantKey × List (String × Layout))} {E : Extension → Prop}
    (h : CompilesVariants E discriminant variants layouts) {place : Nat} {tag : String}
    {fields : List (String × Value)} {out : List UInt8}
    (hout : variantBytes? discriminant variants place tag fields = some out) :
    ∃ schemas inner rest, variants.lookup tag = some schemas ∧
      (discriminant :: schemas.map Prod.fst).Nodup ∧ CompilesFields E discriminant schemas inner ∧
      fieldsBytes? discriminant schemas fields = some rest ∧
      normalVariant discriminant variants tag fields = normalFields discriminant schemas fields := by
  induction variants generalizing layouts place with
  | nil => cases hout
  | cons v variants ih =>
    obtain ⟨t, schemas⟩ := v
    cases h with
    | @cons _ _ _ inner _ _ hnames hfields hrest =>
      rw [normalVariant, List.lookup_cons]
      rcases variantBytes?_cons_iff.mp hout with ⟨rfl, rest, hbytes, -⟩ | ⟨hne, hout⟩
      · rw [beq_self_eq_true, if_pos rfl]
        exact ⟨schemas, inner, rest, rfl, hnames, hfields, hbytes, rfl⟩
      · rw [beq_false_of_ne (Ne.symm hne), if_neg hne]
        exact ih hrest hout

theorem exists_declared {schema : Schema} {layout : Layout}
    (h : Compiles (fun _ => False) discriminant schema layout) {v : Value} {out : List UInt8}
    (hout : schema.bytes? discriminant v = some out) :
    (∀ fields, declared? discriminant schema fields = none) ∨
      ∃ fields schemas inner rest front, v = .object fields ∧
        declared? discriminant schema fields = some schemas ∧
        (front.map Prod.fst ++ schemas.map Prod.fst).Nodup ∧
        CompilesFields (fun _ => False) discriminant schemas inner ∧
        fieldsBytes? discriminant schemas fields = some rest ∧
        declared? discriminant schema (front ++ normalFields discriminant schemas fields) =
          some schemas ∧
        schema.normal discriminant v = .object (front ++ normalFields discriminant schemas fields) := by
  cases h with
  | record hnames hfields =>
    obtain ⟨fields, rfl, hout⟩ := bytes?_record_iff.mp hout
    exact Or.inr ⟨fields, _, _, out, [], rfl, rfl, hnames, hfields, hout, rfl, rfl⟩
  | union _ _ _ hvariants =>
    obtain ⟨fields, tag, rfl, htag, hout⟩ := bytes?_union_iff.mp hout
    obtain ⟨schemas, inner, rest, hlookup, hnames, hfields, hbytes, hnormal⟩ :=
      exists_variant hvariants hout
    refine Or.inr ⟨fields, schemas, inner, rest, [(discriminant, .string tag)], rfl, ?_, hnames,
      hfields, hbytes, ?_, ?_⟩
    · rw [declared?, htag]
      exact hlookup
    · rw [declared?, List.singleton_append, List.lookup_cons_self]
      exact hlookup
    · rw [normal_union htag, hnormal]
      rfl
  | extension _ he => exact he.elim
  | _ => exact Or.inl fun _ => rfl

theorem exists_present? : ∀ {schema : Schema} {layout : Layout},
    Compiles (fun _ => False) discriminant schema layout → ∀ {v : Value} {out : List UInt8},
    schema.bytes? discriminant v = some out →
    (present? schema v = none ∧ present? schema (schema.normal discriminant v) = none) ∨
      ∃ inner layout' out', present? schema v = some inner ∧
        present? schema (schema.normal discriminant v) = some inner ∧
        schema.normal discriminant v = inner.normal discriminant v ∧
        Compiles (fun _ => False) discriminant inner layout' ∧
        inner.bytes? discriminant v = some out'
  | _, _, .optional hopt h, v, out, hout => by
    rw [normal, present?, present?]
    rcases bytes?_optional_iff.mp hout with ⟨hnull, -⟩ | ⟨hnull, rest, hinner, -⟩
    · rw [if_pos hnull, if_pos hnull]
      exact Or.inl ⟨rfl, rfl⟩
    · have hsome := not_isNull_of_yields h hopt (yields_of_bytes? h hinner)
      rw [if_neg hnull, if_neg hnull, if_neg hsome]
      exact exists_present? h hinner
  | _, _, .extension _ he, _, _, _ => he.elim
  | _, _, .scalar type, v, out, hout => Or.inr ⟨_, _, out, rfl, rfl, rfl, .scalar type, hout⟩
  | _, _, .enum h, v, out, hout => Or.inr ⟨_, _, out, rfl, rfl, rfl, .enum h, hout⟩
  | _, _, .numberEnum h, v, out, hout => Or.inr ⟨_, _, out, rfl, rfl, rfl, .numberEnum h, hout⟩
  | _, _, .bitmask h, v, out, hout => Or.inr ⟨_, _, out, rfl, rfl, rfl, .bitmask h, hout⟩
  | _, _, .array h, v, out, hout => Or.inr ⟨_, _, out, rfl, rfl, rfl, .array h, hout⟩
  | _, _, .union hne hmany htags h, v, out, hout =>
    Or.inr ⟨_, _, out, rfl, rfl, rfl, .union hne hmany htags h, hout⟩
  | _, _, .record hnames h, v, out, hout => Or.inr ⟨_, _, out, rfl, rfl, rfl, .record hnames h, hout⟩

theorem child?_normal {schema : Schema} {layout : Layout}
    (h : Compiles (fun _ => False) discriminant schema layout) {v : Value} {out : List UInt8}
    (hout : schema.bytes? discriminant v = some out) (step : Step) :
    child? discriminant schema (schema.normal discriminant v) step =
        (child? discriminant schema v step).map (fun part => (part.1, part.1.normal discriminant part.2)) ∧
      ∀ part, child? discriminant schema v step = some part → ∃ layout' out',
        Compiles (fun _ => False) discriminant part.1 layout' ∧
        part.1.bytes? discriminant part.2 = some out' := by
  cases step with
  | element i =>
    cases h with
    | @array count element inner h =>
      obtain ⟨items, parts, rfl, -, hparts, -⟩ := bytes?_array_iff.mp hout
      rw [normal, Value.items?, Option.elim_some, child?_array, child?_array, List.getElem?_map,
        Option.map_map, Option.map_map]
      refine ⟨rfl, fun part hpart => ?_⟩
      obtain ⟨item, hitem, rfl⟩ := Option.map_eq_some_iff.mp hpart
      obtain ⟨hlt, rfl⟩ := List.getElem?_eq_some_iff.mp hitem
      have hpairs := mapM_eq_some_iff_forall₂.mp hparts
      exact ⟨inner, _, h, hpairs.get hlt (hpairs.length_eq ▸ hlt)⟩
    | extension _ he => exact he.elim
    | _ => exact ⟨rfl, fun part hpart => nomatch hpart⟩
  | field name =>
    rcases exists_declared h hout with hnone | ⟨fields, schemas, inner, rest, front, rfl, hdeclared,
      hnames, hfields, hbytes, hagain, hnormal⟩
    · rw [child?_field_of_declared?_eq_none hnone, child?_field_of_declared?_eq_none hnone]
      exact ⟨rfl, fun part hpart => nomatch hpart⟩
    · rw [hnormal, child?_field, child?_field, hdeclared, hagain, Option.bind_some, Option.bind_some]
      cases hname : schemas.lookup name with
      | none => exact ⟨rfl, fun part hpart => nomatch hpart⟩
      | some inner =>
        obtain ⟨layout', hlayout⟩ := exists_compiles_of_lookup hfields hname
        obtain ⟨out', hout'⟩ := exists_bytes?_of_lookup hbytes hname
        rw [Option.map_some, Option.map_some, Option.map_some,
          field_normalFields front fields hnames hname]
        refine ⟨rfl, fun part hpart => ?_⟩
        cases hpart
        exact ⟨layout', out', hlayout, hout'⟩

/-- A value and its normal form have their leaves at the same places, and there is a value for each leaf. -/
theorem leafAt?_normal (path : List Step) : ∀ {schema : Schema} {layout : Layout},
    Compiles (fun _ => False) discriminant schema layout → ∀ {v : Value} {out : List UInt8},
    schema.bytes? discriminant v = some out →
    schema.leafAt? discriminant path (schema.normal discriminant v) =
        (schema.leafAt? discriminant path v).map (fun leaf => (leaf.1, leaf.1.normal leaf.2)) ∧
      ∀ leaf, schema.leafAt? discriminant path v = some leaf → ∃ held, leaf.1.bytes? leaf.2 = some held := by
  induction path with
  | nil =>
    intro schema layout h v out hout
    rw [leafAt?, leafAt?]
    rcases exists_present? h hout with ⟨hnone, hnone'⟩ | ⟨inner, layout', out', hinner, hinner', hnormal,
      h, hout⟩
    · rw [hnone, hnone']
      exact ⟨rfl, fun leaf hleaf => nomatch hleaf⟩
    · rw [hinner, hinner', hnormal]
      cases inner with
      | scalar type =>
        refine ⟨rfl, fun leaf hleaf => ?_⟩
        cases hleaf
        exact ⟨out', hout⟩
      | _ => exact ⟨rfl, fun leaf hleaf => nomatch hleaf⟩
  | cons step path ih =>
    intro schema layout h v out hout
    rw [leafAt?, leafAt?]
    rcases exists_present? h hout with ⟨hnone, hnone'⟩ | ⟨inner, layout', out', hinner, hinner', hnormal,
      h, hout⟩
    · rw [hnone, hnone']
      exact ⟨rfl, fun leaf hleaf => nomatch hleaf⟩
    · obtain ⟨hstep, hpart⟩ := child?_normal h hout step
      rw [hinner, hinner', hnormal]
      simp only [Option.bind_eq_bind, Option.bind_some, hstep]
      cases hchild : child? discriminant inner v step with
      | none => exact ⟨rfl, fun leaf hleaf => nomatch hleaf⟩
      | some part =>
        obtain ⟨layout', out', h, hout⟩ := hpart part hchild
        exact ih h hout

end

end Layout

end WireSchema
