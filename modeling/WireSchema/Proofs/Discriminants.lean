import WireSchema.Proofs.Conformance
import WireSchema.Proofs.Canonical
import WireSchema.Proofs.Registries

/-! On the wire a variant is its place, so the name under which objects carry their tag is a matter of
the values alone. Both names must be free for this: neither may be a field of a variant. -/

namespace WireSchema

namespace Value

def rekeyed (key : String → String) (value : String → Value → Value) (fields : List (String × Value)) :
    List (String × Value) :=
  fields.map fun f => (key f.1, value f.1 f.2)

/-- The name stays as it is and no other becomes it. -/
def KeepsName (key : String → String) (name : String) : Prop := ∀ other, key other = name ↔ other = name

variable {key : String → String} {value : String → Value → Value} {name : String}

theorem KeepsName.beq_eq (h : KeepsName key name) (other : String) :
    (name == key other) = (name == other) := by
  rw [Bool.eq_iff_iff, beq_iff_eq, beq_iff_eq, eq_comm, h, eq_comm]

theorem rekeyed_cons (f : String × Value) (fields : List (String × Value)) :
    rekeyed key value (f :: fields) = (key f.1, value f.1 f.2) :: rekeyed key value fields := rfl

theorem insert_rekeyed (h : KeepsName key name) (v : Value) (fields : List (String × Value)) :
    Assoc.insert name (value name v) (rekeyed key value fields) =
      rekeyed key value (Assoc.insert name v fields) := by
  induction fields with
  | nil => exact congrArg (fun k => [(k, value name v)]) ((h name).mpr rfl).symm
  | cons f fields ih =>
    rw [rekeyed_cons, Assoc.insert, Assoc.insert, h.beq_eq, ih]
    split
    · rename_i hname
      rw [rekeyed_cons, eq_of_beq hname]
    · rw [rekeyed_cons]

theorem lookup_rekeyed (h : KeepsName key name) (fields : List (String × Value)) :
    (rekeyed key value fields).lookup name = (fields.lookup name).map (value name) := by
  induction fields with
  | nil => rfl
  | cons f fields ih =>
    rw [rekeyed_cons, List.lookup_cons, List.lookup_cons, h.beq_eq, ih]
    split
    · rename_i hname
      rw [eq_of_beq hname]
      rfl
    · rfl

theorem field_rekeyed (h : KeepsName key name) (hnull : value name .null = .null)
    (fields : List (String × Value)) :
    field (rekeyed key value fields) name = value name (field fields name) := by
  rw [field, field, lookup_rekeyed h]
  cases fields.lookup name with
  | none => exact hnull.symm
  | some v => rfl

/-- An object whose discriminant has another name and whose entries have other values, told by the tag. -/
def retagged (discriminant other : String) (value : Option String → String → Value → Value) (v : Value) :
    Value :=
  v.fields?.elim v fun fields => .object (rekeyed (Function.update id discriminant other)
    (value ((fields.lookup discriminant).bind toString?)) fields)

theorem retagged_object {discriminant other tag : String}
    {value : Option String → String → Value → Value} (fields : List (String × Value)) :
    (object ((discriminant, string tag) :: fields)).retagged discriminant other value =
      .object (rekeyed (Function.update id discriminant other) (value (some tag))
        ((discriminant, string tag) :: fields)) := by
  rw [retagged, fields?, Option.elim_some, List.lookup_cons_self]
  rfl

theorem keepsName_update {discriminant other : String} (h : name ≠ discriminant) (h' : name ≠ other) :
    KeepsName (Function.update id discriminant other) name := by
  intro k
  rw [Function.update_apply]
  split
  · rename_i hk
    subst hk
    exact iff_of_false h'.symm h.symm
  · exact Iff.rfl

end Value

namespace Schema

section

variable (discriminant other : String)

mutual

/-- The value with another name for the discriminant in exactly the objects of unions, at any depth. -/
def renamed : Schema → Value → Value
  | .scalar _, v | .custom _, v | .enum _, v | .numberEnum _, v | .bitmask _, v => v
  | .optional inner, v => renamed inner v
  | .array _ element, v => v.items?.elim v fun items => .array (items.map (renamed element))
  | .union variants, v => v.retagged discriminant other (variantRenamed variants)
  | .record schemas, v =>
    v.fields?.elim v fun fields => .object (Value.rekeyed id (fieldRenamed schemas) fields)

/-- The value of an entry, by the field that is declared under its name. -/
def fieldRenamed : List (String × Schema) → String → Value → Value
  | [], _, v => v
  | (name, schema) :: rest, key, v => if key = name then renamed schema v else fieldRenamed rest key v

def variantRenamed : List (String × List (String × Schema)) → Option String → String → Value → Value
  | [], _, _, v => v
  | (tag, schemas) :: rest, wanted, key, v =>
    if wanted = some tag then fieldRenamed schemas key v else variantRenamed rest wanted key v

end

end

variable {discriminant other : String}

theorem renamed_null : ∀ schema : Schema, schema.renamed discriminant other .null = .null
  | .scalar _ | .custom _ | .enum _ | .numberEnum _ | .bitmask _ | .array _ _ | .union _ | .record _ => rfl
  | .optional inner => renamed_null inner

theorem isNull_renamed : ∀ (schema : Schema) (v : Value),
    (schema.renamed discriminant other v).isNull = v.isNull
  | .scalar _, _ | .custom _, _ | .enum _, _ | .numberEnum _, _ | .bitmask _, _ => rfl
  | .optional inner, v => isNull_renamed inner v
  | .array _ _, v | .union _, v | .record _, v => by cases v <;> rfl

theorem fieldRenamed_of_not_mem {key : String} {schemas : List (String × Schema)}
    (h : key ∉ schemas.map Prod.fst) (v : Value) :
    fieldRenamed discriminant other schemas key v = v := by
  induction schemas with
  | nil => rfl
  | cons f rest ih =>
    rw [List.map_cons, List.mem_cons, not_or] at h
    rw [fieldRenamed, if_neg h.1, ih h.2]

theorem fieldRenamed_of_mem {f : String × Schema} {schemas : List (String × Schema)}
    (hnames : (schemas.map Prod.fst).Nodup) (hf : f ∈ schemas) :
    fieldRenamed discriminant other schemas f.1 = f.2.renamed discriminant other := by
  funext v
  induction schemas with
  | nil => cases hf
  | cons f' rest ih =>
    rw [List.map_cons, List.nodup_cons] at hnames
    rw [fieldRenamed]
    rcases List.mem_cons.mp hf with rfl | hf
    · rw [if_pos rfl]
    · rw [if_neg, ih hnames.2 hf]
      rintro hname
      exact hnames.1 (hname ▸ List.mem_map_of_mem hf)

theorem variantRenamed_of_mem {variant : String × List (String × Schema)}
    {variants : List (String × List (String × Schema))} (htags : (variants.map Prod.fst).Nodup)
    (hvariant : variant ∈ variants) :
    variantRenamed discriminant other variants (some variant.1) =
      fieldRenamed discriminant other variant.2 := by
  funext key v
  induction variants with
  | nil => cases hvariant
  | cons variant' rest ih =>
    rw [List.map_cons, List.nodup_cons] at htags
    rw [variantRenamed]
    rcases List.mem_cons.mp hvariant with rfl | hvariant
    · rw [if_pos rfl]
    · rw [if_neg, ih htags.2 hvariant]
      intro htag
      exact htags.1 (Option.some.inj htag ▸ List.mem_map_of_mem hvariant)

section

variable {schemas : List (String × Schema)}

theorem declared_renamed (hnames : (discriminant :: schemas.map Prod.fst).Nodup)
    (hnames' : (other :: schemas.map Prod.fst).Nodup) :
    ∀ f ∈ schemas, Value.KeepsName (Function.update id discriminant other) f.1 ∧
      fieldRenamed discriminant other schemas f.1 = f.2.renamed discriminant other := by
  rw [List.nodup_cons] at hnames hnames'
  intro f hf
  have hmem : f.1 ∈ schemas.map Prod.fst := List.mem_map_of_mem hf
  refine ⟨Value.keepsName_update ?_ ?_, fieldRenamed_of_mem hnames.2 hf⟩
  · exact fun heq => hnames.1 (heq ▸ hmem)
  · exact fun heq => hnames'.1 (heq ▸ hmem)

theorem rekeyed_tag (h : discriminant ∉ schemas.map Prod.fst) (tag : String)
    (fields : List (String × Value)) :
    Value.rekeyed (Function.update id discriminant other) (fieldRenamed discriminant other schemas)
        ((discriminant, .string tag) :: fields) =
      (other, .string tag) :: Value.rekeyed (Function.update id discriminant other)
        (fieldRenamed discriminant other schemas) fields := by
  rw [Value.rekeyed_cons, Function.update_self, fieldRenamed_of_not_mem h]

end

end Schema

namespace Read

variable {α β : Type}

theorem Exact.map_congr {m : Read α} (h : m.Exact) {f g : α → β}
    (hfg : ∀ held a, m.Yields held a → f a = g a) : f <$> m = g <$> m := by
  refine funext fun cursor => ?_
  change (f <$> m).run.run cursor = (g <$> m).run.run cursor
  rw [run_map, run_map]
  rcases hrun : m.run.run cursor with ⟨failure | a, cursor'⟩
  · rfl
  · obtain ⟨held, -, -, hyields⟩ := h cursor a cursor' hrun
    exact congrArg (fun b => (Except.ok b, cursor')) (hfg held a hyields)

theorem repeated_map (f : α → β) (m : Read α) (done : List α) (count : Nat) :
    repeated (f <$> m) (done.map f) count = List.map f <$> repeated m done count := by
  induction count generalizing done with
  | zero => rw [repeated, repeated, map_pure, List.map_reverse]
  | succ count ih =>
    rw [repeated, repeated, bind_map_left, map_bind]
    exact bind_congr fun a => ih (a :: done)

end Read

namespace Layout

open Schema Read Value

variable {discriminant other : String}

mutual

theorem read_renamed : ∀ {schema : Schema} {layout layout' : Layout},
    Compiles (fun _ => False) discriminant schema layout →
    Compiles (fun _ => False) other schema layout' →
    layout'.read = schema.renamed discriminant other <$> layout.read
  | _, _, _, .scalar _, .scalar _ | _, _, _, .enum _, .enum _
  | _, _, _, .numberEnum _, .numberEnum _ | _, _, _, .bitmask _, .bitmask _ => (id_map _).symm
  | _, _, _, .extension _ he, _ | _, _, _, _, .extension _ he => he.elim
  | .optional inner, .optional layout, .optional layout', .optional _ h, .optional _ h' => by
    rw [read, read, map_bind, read_renamed h h']
    refine bind_congr fun presence => ?_
    split
    · rw [map_pure, renamed, renamed_null]
    split
    · rfl
    · rfl
  | .array count element, .array _ layout, .array _ layout', .array h, .array h' => by
    rw [read, read, map_bind, read_renamed h h']
    refine bind_congr fun length => ?_
    rw [← @List.map_nil _ _ (element.renamed discriminant other), repeated_map, Functor.map_map,
      Functor.map_map]
    rfl
  | .union variants, .union _ layouts _, .union _ layouts' _, .union _ _ htags h, .union _ _ _ h' => by
    rw [read, read, map_bind]
    refine bind_congr fun index => ?_
    exact readVariant_renamed h h' (fun _ => variantRenamed_of_mem htags) index index.toNat
  | .record schemas, .record layouts, .record layouts', .record hnames h, .record _ h' => by
    have hfields : readFields layouts' (rekeyed id (fieldRenamed discriminant other schemas) []) =
        rekeyed id (fieldRenamed discriminant other schemas) <$> readFields layouts [] :=
      readFields_renamed h h' (fun f hf => ⟨fun _ => Iff.rfl, fieldRenamed_of_mem hnames hf⟩) []
    rw [read, read, Functor.map_map]
    refine (congrArg (Value.object <$> ·) hfields).trans ?_
    rw [Functor.map_map]
    rfl

theorem readFields_renamed : ∀ {schemas : List (String × Schema)}
    {layouts layouts' : List (String × Layout)},
    CompilesFields (fun _ => False) discriminant schemas layouts →
    CompilesFields (fun _ => False) other schemas layouts' →
    ∀ {key : String → String} {value : String → Value → Value},
    (∀ f ∈ schemas, KeepsName key f.1 ∧ value f.1 = f.2.renamed discriminant other) →
    ∀ front, readFields layouts' (rekeyed key value front) =
      rekeyed key value <$> readFields layouts front
  | _, _, _, .nil, .nil, _, _, _, _ => rfl
  | (name, schema) :: _, _, _, .cons h hs, .cons h' hs', key, value, hrenamed, front => by
    obtain ⟨⟨hkeeps, hvalue⟩, hrest⟩ := List.forall_mem_cons.mp hrenamed
    rw [readFields, readFields, map_bind, read_renamed h h', bind_map_left]
    refine bind_congr fun v => ?_
    rw [← hvalue, insert_rekeyed hkeeps]
    exact readFields_renamed hs hs' hrest _

theorem readVariant_renamed : ∀ {variants : List (String × List (String × Schema))}
    {layouts layouts' : List (VariantKey × List (String × Layout))},
    CompilesVariants (fun _ => False) discriminant variants layouts →
    CompilesVariants (fun _ => False) other variants layouts' →
    ∀ {value : Option String → String → Value → Value},
    (∀ variant ∈ variants, value (some variant.1) = fieldRenamed discriminant other variant.2) →
    ∀ index place, readVariant other index layouts' place =
      retagged discriminant other value <$> readVariant discriminant index layouts place
  | _, _, _, .nil, .nil, _, _, _, _ => rfl
  | (tag, schemas) :: _, _, _, .cons hnames h _, .cons hnames' h' _, value, hvalue, _, 0 => by
    have htag : value (some tag) = fieldRenamed discriminant other schemas :=
      hvalue _ List.mem_cons_self
    have hfront : rekeyed (Function.update id discriminant other) (fieldRenamed discriminant other schemas)
        [(discriminant, .string tag)] = [(other, .string tag)] :=
      rekeyed_tag (List.nodup_cons.mp hnames).1 tag []
    have hfields := readFields_renamed h h' (declared_renamed hnames hnames')
      [(discriminant, .string tag)]
    rw [hfront] at hfields
    rw [readVariant, readVariant, hfields, Functor.map_map, Functor.map_map]
    -- The tag is still in front of all that has been read, which is where the renaming looks it up.
    refine (exact_readFields h _).map_congr fun held fields hyields => ?_
    obtain ⟨new, rfl, -⟩ := (yields_readFields_iff h [(discriminant, .string tag)] hnames).mp hyields
    rw [List.singleton_append, retagged_object, htag]
  | _, _, _, .cons _ _ hs, .cons _ _ hs', _, hvalue, index, place + 1 =>
    readVariant_renamed hs hs' (List.forall_mem_cons.mp hvalue).2 index place

end

end Layout

namespace Schema

open Value

variable {types : Extensions} {discriminant other : String}

theorem VariantConforms.mem_tags {variants : List (String × List (String × Schema))} {tag : String}
    {fields : List (String × Value)} (h : VariantConforms discriminant variants tag fields) :
    tag ∈ variants.map Prod.fst := by
  induction variants with
  | nil => exact h.elim
  | cons variant rest ih =>
    rw [List.map_cons, List.mem_cons]
    exact Or.imp (fun h => h.1.symm) ih h

theorem FieldsConform.field {schemas : List (String × Schema)} {front fields : List (String × Value)}
    (h : FieldsConform discriminant schemas fields)
    (hnames : (front.map Prod.fst ++ schemas.map Prod.fst).Nodup) :
    ∀ f ∈ schemas, f.2.Conforms discriminant (Value.field (front ++ fields) f.1) := by
  induction schemas generalizing front fields with
  | nil => exact fun f hf => absurd hf List.not_mem_nil
  | cons f rest ih =>
    obtain ⟨name, schema⟩ := f
    obtain ⟨v, fields, rfl, hv, hrest⟩ := h
    refine List.forall_mem_cons.mpr ⟨?_, fun f hf => ?_⟩
    · rw [Layout.field_front hnames]
      exact hv
    · have hconforms := ih hrest (Layout.nodup_front hnames v) f hf
      rwa [List.append_assoc] at hconforms

mutual

theorem bytes?_renamed : ∀ {schema : Schema}, schema.WellFormed types discriminant →
    schema.WellFormed types other → ∀ {v : Value}, schema.Conforms discriminant v →
    schema.bytes? other (schema.renamed discriminant other v) = schema.bytes? discriminant v
  | .scalar _, _, _, _, _ | .custom _, _, _, _, _ | .enum _, _, _, _, _ | .numberEnum _, _, _, _, _
  | .bitmask _, _, _, _, _ => rfl
  | .optional inner, hwell, hwell', v, hv => by
    rw [wellFormed_optional_iff] at hwell hwell'
    rw [bytes?, bytes?, renamed, isNull_renamed]
    rcases hv with rfl | hv
    · rfl
    · rw [bytes?_renamed hwell.2 hwell'.2 hv]
  | .array count element, hwell, hwell', v, hv => by
    rw [wellFormed_array_iff] at hwell hwell'
    obtain ⟨items, rfl, -, hitems⟩ := hv
    have hparts : (items.map (element.renamed discriminant other)).mapM (bytes? other element) =
        items.mapM (bytes? discriminant element) :=
      mapM_map_of_forall fun item hitem => bytes?_renamed hwell hwell' (hitems item hitem)
    rw [renamed, items?, Option.elim_some, bytes?, bytes?, items?, items?, Option.bind_eq_bind,
      Option.bind_eq_bind, Option.bind_some, Option.bind_some, List.length_map, hparts]
  | .union variants, hwell, hwell', v, hv => by
    rw [wellFormed_union_iff] at hwell hwell'
    obtain ⟨tag, fields, rfl, hfields⟩ := hv
    obtain ⟨variant, hvariant, rfl⟩ := List.mem_map.mp hfields.mem_tags
    have hvalue {v : String × List (String × Schema)} (hv : v ∈ variants) :
        variantRenamed discriminant other variants (some v.1) = fieldRenamed discriminant other v.2 :=
      variantRenamed_of_mem hwell.2.1 hv
    have hbytes := variantBytes?_renamed hwell.2.1 hwell.2.2 hwell'.2.2 hfields
      (fun v hv htag => htag ▸ hvalue hv) 0
    have hfree := (hwell.2.2 variant hvariant).1.1
    rw [hvalue hvariant, rekeyed_tag hfree] at hbytes
    rw [renamed, retagged_object, hvalue hvariant, rekeyed_tag hfree, bytes?, bytes?, fields?, fields?]
    simp only [Option.bind_eq_bind, Option.bind_some, List.lookup_cons_self, toString?]
    exact hbytes
  | .record schemas, hwell, hwell', v, hv => by
    rw [wellFormed_record_iff] at hwell hwell'
    obtain ⟨fields, rfl, hfields⟩ := hv
    have hentries : ∀ f ∈ schemas, f.2.Conforms discriminant (Value.field fields f.1) :=
      @FieldsConform.field _ _ [] fields hfields hwell.1
    have hbytes : fieldsBytes? other schemas
        (rekeyed id (fieldRenamed discriminant other schemas) fields) =
        fieldsBytes? discriminant schemas fields :=
      fieldsBytes?_renamed hwell.2 hwell'.2
        (fun f hf => ⟨fun _ => Iff.rfl, fieldRenamed_of_mem hwell.1 hf⟩) hentries
    rw [renamed, fields?, Option.elim_some, bytes?, bytes?, fields?, fields?]
    exact hbytes

theorem fieldsBytes?_renamed : ∀ {schemas : List (String × Schema)},
    (∀ f ∈ schemas, f.2.WellFormed types discriminant) → (∀ f ∈ schemas, f.2.WellFormed types other) →
    ∀ {key : String → String} {value : String → Value → Value},
    (∀ f ∈ schemas, KeepsName key f.1 ∧ value f.1 = f.2.renamed discriminant other) →
    ∀ {fields : List (String × Value)},
    (∀ f ∈ schemas, f.2.Conforms discriminant (Value.field fields f.1)) →
    fieldsBytes? other schemas (rekeyed key value fields) = fieldsBytes? discriminant schemas fields
  | [], _, _, _, _, _, _, _ => rfl
  | (name, schema) :: rest, hwell, hwell', key, value, hrenamed, fields, hfields => by
    rw [List.forall_mem_cons] at hwell hwell' hfields
    obtain ⟨⟨hkeeps, hvalue⟩, hrest⟩ := List.forall_mem_cons.mp hrenamed
    have hnull : value name .null = .null := hvalue ▸ renamed_null schema
    rw [fieldsBytes?, fieldsBytes?, field_rekeyed hkeeps hnull, hvalue,
      bytes?_renamed hwell.1 hwell'.1 hfields.1, fieldsBytes?_renamed hwell.2 hwell'.2 hrest hfields.2]

theorem variantBytes?_renamed : ∀ {variants : List (String × List (String × Schema))},
    (variants.map Prod.fst).Nodup →
    (∀ v ∈ variants, (discriminant ∉ v.2.map Prod.fst ∧ (v.2.map Prod.fst).Nodup) ∧
      ∀ f ∈ v.2, f.2.WellFormed types discriminant) →
    (∀ v ∈ variants, (other ∉ v.2.map Prod.fst ∧ (v.2.map Prod.fst).Nodup) ∧
      ∀ f ∈ v.2, f.2.WellFormed types other) →
    ∀ {tag : String} {fields : List (String × Value)},
    VariantConforms discriminant variants tag fields → ∀ {value : String → Value → Value},
    (∀ v ∈ variants, tag = v.1 → value = fieldRenamed discriminant other v.2) → ∀ place,
    variantBytes? other variants place tag
        (rekeyed (Function.update id discriminant other) value ((discriminant, .string tag) :: fields)) =
      variantBytes? discriminant variants place tag ((discriminant, .string tag) :: fields)
  | [], _, _, _, _, _, hfields, _, _, _ => hfields.elim
  | (t, schemas) :: rest, htags, hwell, hwell', tag, fields, hfields, value, hvalue, place => by
    rw [List.map_cons, List.nodup_cons] at htags
    rw [List.forall_mem_cons] at hwell hwell' hvalue
    rw [variantBytes?, variantBytes?]
    by_cases htag : t = tag
    · have hconforms : FieldsConform discriminant schemas fields :=
        hfields.elim And.right fun hrest => absurd (htag ▸ hrest.mem_tags) htags.1
      have hnames := List.nodup_cons.mpr hwell.1.1
      have hnames' := List.nodup_cons.mpr hwell'.1.1
      have hentries : ∀ f ∈ schemas, f.2.Conforms discriminant
          (Value.field ((discriminant, .string tag) :: fields) f.1) :=
        @FieldsConform.field _ _ [(discriminant, .string tag)] fields hconforms hnames
      have hbytes := fieldsBytes?_renamed hwell.1.2 hwell'.1.2 (declared_renamed hnames hnames') hentries
      rw [if_pos htag, if_pos htag, hvalue.1 htag.symm, hbytes]
    · have hrest : VariantConforms discriminant rest tag fields :=
        hfields.resolve_left fun hfirst => htag hfirst.1
      rw [if_neg htag, if_neg htag]
      exact variantBytes?_renamed htags.2 hwell.2 hwell'.2 hrest hvalue.2 (place + 1)

end

end Schema

namespace Codec

open Schema

variable {types : Extensions} {discriminant other : String} {schema : Schema} {c c' : Codec}

theorem IsPlain.of_discriminant (h : ofSchema types discriminant schema = .ok c)
    (h' : ofSchema types other schema = .ok c') (hplain : c.IsPlain) : c'.IsPlain := by
  obtain ⟨-, layout, hlayout, rfl⟩ := ofSchema_eq_ok_iff.mp h
  obtain ⟨-, layout', hlayout', rfl⟩ := ofSchema_eq_ok_iff.mp h'
  refine List.eq_nil_iff_forall_not_mem.mpr fun name (hname : name ∈ layout'.extensionNames) => ?_
  rw [Layout.mem_extensionNames_iff hlayout', ← Layout.mem_extensionNames_iff hlayout] at hname
  exact List.eq_nil_iff_forall_not_mem.mp hplain name hname

theorem decode_of_read_map {f : Value → Value} (h : c'.layout.read = f <$> c.layout.read)
    (bytes : List UInt8) : c'.decode bytes = f <$> c.decode bytes := by
  have hfrom : c'.decodeFrom (Cursor.ofBytes bytes) =
      ((c.decodeFrom (Cursor.ofBytes bytes)).1.map f, (c.decodeFrom (Cursor.ofBytes bytes)).2) := by
    rw [decodeFrom, h, Read.run_map]
    rfl
  rw [decode_eq, decode_eq, hfrom]
  rcases c.decodeFrom (Cursor.ofBytes bytes) with ⟨_ | v, cursor⟩
  · rfl
  · change (cursor.checkEnd >>= fun _ => pure (f v)) = f <$> (cursor.checkEnd >>= fun _ => pure v)
    cases cursor.checkEnd <;> rfl

/-- Under another name for the discriminant a codec gives for all bytes what it gave before, but for that
name in the objects of unions, and the same failures; and what it gave is encoded to the same bytes. -/
theorem discriminant_not_on_wire (h : ofSchema types discriminant schema = .ok c)
    (h' : ofSchema types other schema = .ok c') (hplain : c.IsPlain) :
    (∀ bytes, c'.decode bytes = schema.renamed discriminant other <$> c.decode bytes) ∧
      ∀ bytes v, c.decode bytes = .ok v →
        ∃ out, c.encode v = .ok out ∧ c'.encode (schema.renamed discriminant other v) = .ok out := by
  have hplain' := hplain.of_discriminant h h'
  have hc : Compiles (fun _ => False) discriminant schema c.layout := hplain.compiles h
  have hc' : Compiles (fun _ => False) other schema c'.layout := hplain'.compiles h'
  refine ⟨decode_of_read_map (Layout.read_renamed hc hc'), fun bytes v hdecode => ?_⟩
  have hyields := (decode_eq_ok_iff hc).mp hdecode
  have hconforms := (Layout.gives_read_iff hc).mp ⟨bytes, hyields⟩
  obtain ⟨out, hout, -⟩ := Layout.bytes?_of_yields hc hyields
  refine ⟨out, ?_, ?_⟩
  · rw [encode_eq_ok_iff (hplain.compiles h), Layout.output?_write hc, hout]
  · rw [encode_eq_ok_iff (hplain'.compiles h'), Layout.output?_write hc',
      bytes?_renamed (ofSchema_eq_ok_iff.mp h).1 (ofSchema_eq_ok_iff.mp h').1 hconforms, hout]

private def sketch : Schema :=
  .record [("type", .scalar .uint8), ("lines", .array .one
    (.union [("dot", []), ("stroke", [("cap", .optional (.union [("round", [])]))])]))]

private def sketchCodec (discriminant : String) : Codec :=
  .ofLayout ∅ sketch (.record [("type", .scalar .uint8), ("lines", .array .one
    (.union discriminant
      [(⟨"dot", 0⟩, []), (⟨"stroke", 1⟩,
        [("cap", .optional (.union discriminant [(⟨"round", 0⟩, [])] [("round", 0)]))])]
      [("dot", 0), ("stroke", 1)]))])

private def sketchValue (discriminant : String) : Value :=
  .object [("type", .u8 7), ("lines", .array [.object [(discriminant, .string "dot")],
    .object [(discriminant, .string "stroke"), ("cap", .object [(discriminant, .string "round")])]])]

/-- The tags of three objects go under another name, the field of a record that has the old one does not. -/
theorem discriminant_not_on_wire_sketch :
    ofSchema ∅ "type" sketch = .ok (sketchCodec "type") ∧
      ofSchema ∅ "kind" sketch = .ok (sketchCodec "kind") ∧ (sketchCodec "type").IsPlain ∧
      (sketchCodec "type").decode [7, 2, 0, 1, 1, 0] = .ok (sketchValue "type") ∧
      (sketchCodec "kind").decode [7, 2, 0, 1, 1, 0] = .ok (sketchValue "kind") ∧
      (sketchCodec "kind").encode (sketchValue "kind") = .ok [7, 2, 0, 1, 1, 0] ∧
      (sketchCodec "kind").decode [7, 1, 9] = .error (.undeclared (.variant 9)) := by
  have hcodec : ofSchema ∅ "type" sketch = .ok (sketchCodec "type") := rfl
  have hcodec' : ofSchema ∅ "kind" sketch = .ok (sketchCodec "kind") := rfl
  have hplain : (sketchCodec "type").IsPlain := isPlain_of_empty hcodec
  have hdecode : (sketchCodec "type").decode [7, 2, 0, 1, 1, 0] = .ok (sketchValue "type") := rfl
  have hrenamed : sketch.renamed "type" "kind" (sketchValue "type") = sketchValue "kind" := rfl
  obtain ⟨hdecodes, hencodes⟩ := discriminant_not_on_wire hcodec hcodec' hplain
  obtain ⟨out, hout, hout'⟩ := hencodes _ _ hdecode
  have hsame : (sketchCodec "type").encode (sketchValue "type") = .ok [7, 2, 0, 1, 1, 0] := rfl
  rw [hsame] at hout
  cases hout
  refine ⟨hcodec, hcodec', hplain, hdecode, ?_, hrenamed ▸ hout', ?_⟩
  · rw [hdecodes, hdecode, ← hrenamed]
    rfl
  · rw [hdecodes]
    rfl

end Codec

end WireSchema
