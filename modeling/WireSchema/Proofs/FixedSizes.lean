import WireSchema.Proofs.Canonical
import WireSchema.Proofs.Conformance

/-! A layout without a fixed size has two values of different lengths. The exception are optionals and
arrays around what is always empty, where the presence byte or the count is all there is. -/

namespace WireSchema

/-- Takes two different values. -/
def Varies (lengths : Nat → Prop) : Prop := ∃ m n, m ≠ n ∧ lengths m ∧ lengths n

namespace Varies

variable {lengths lengths' : Nat → Prop}

theorem add (h : Varies lengths) (extra : Nat) (hadd : ∀ n, lengths n → lengths' (extra + n)) :
    Varies lengths' := by
  obtain ⟨m, n, hne, hm, hn⟩ := h
  exact ⟨extra + m, extra + n, fun heq => hne (Nat.add_left_cancel heq), hadd m hm, hadd n hn⟩

theorem exists_pos (h : Varies lengths) : ∃ n, 0 < n ∧ lengths n := by
  obtain ⟨m, n, hne, hm, hn⟩ := h
  rcases Nat.eq_zero_or_pos m with rfl | hpos
  · exact ⟨n, Nat.pos_of_ne_zero hne.symm, hn⟩
  · exact ⟨m, hpos, hm⟩

end Varies

namespace Layout

open Read

mutual

/-- No optional and no array holds a layout that is always empty. -/
def Filled : Layout → Prop
  | .scalar _ | .extension .. | .enum _ | .numberEnum _ | .bitmask _ => True
  | .optional inner => inner.fixedSize? ≠ some 0 ∧ inner.Filled
  | .array _ element => element.fixedSize? ≠ some 0 ∧ element.Filled
  | .union _ variants _ => VariantsFilled variants
  | .record fields => FieldsFilled fields

def FieldsFilled : List (String × Layout) → Prop
  | [] => True
  | (_, layout) :: rest => layout.Filled ∧ FieldsFilled rest

def VariantsFilled : List (VariantKey × List (String × Layout)) → Prop
  | [] => True
  | (_, fields) :: rest => FieldsFilled fields ∧ VariantsFilled rest

end

mutual

theorem extensionNames_of_fixedSize? : ∀ {layout : Layout} {n : Nat},
    layout.fixedSize? = some n → layout.extensionNames = []
  | .scalar _, _, _ | .enum _, _, _ | .numberEnum _, _, _ | .bitmask _, _, _ => rfl
  | .extension _ _, _, hn | .optional _, _, hn | .array _ _, _, hn => nomatch hn
  | .union _ variants _, n, hn => by
    obtain ⟨k, hk, -⟩ := Option.map_eq_some_iff.mp hn
    exact variantsExtensionNames_of_sizes (commonSize?_eq_some hk)
  | .record fields, _, hn => fieldsExtensionNames_of_fixedFieldsSize? hn

theorem fieldsExtensionNames_of_fixedFieldsSize? : ∀ {fields : List (String × Layout)} {n : Nat},
    fixedFieldsSize? fields = some n → fieldsExtensionNames fields = []
  | [], _, _ => rfl
  | (_, layout) :: rest, n, hn => by
    obtain ⟨first, hfirst, hn⟩ := Option.bind_eq_some_iff.mp hn
    obtain ⟨others, hothers, -⟩ := Option.bind_eq_some_iff.mp hn
    rw [fieldsExtensionNames, extensionNames_of_fixedSize? hfirst,
      fieldsExtensionNames_of_fixedFieldsSize? hothers]
    rfl

theorem variantsExtensionNames_of_sizes : ∀ {variants : List (VariantKey × List (String × Layout))}
    {n : Nat}, (∀ s ∈ fixedVariantSizes variants, s = some n) → variantsExtensionNames variants = []
  | [], _, _ => rfl
  | (_, fields) :: rest, n, hn => by
    obtain ⟨hfirst, hrest⟩ := List.forall_mem_cons.mp hn
    rw [variantsExtensionNames, fieldsExtensionNames_of_fixedFieldsSize? hfirst,
      variantsExtensionNames_of_sizes hrest]
    rfl

end

/-- Some value is read from this many bytes. -/
def Spans (layout : Layout) (n : Nat) : Prop := ∃ held v, layout.read.Yields held v ∧ held.length = n

def FieldsSpan (layouts : List (String × Layout)) (n : Nat) : Prop :=
  ∃ fields held, YieldsFields layouts fields held ∧ held.length = n

def VariantsSpan (layouts : List (VariantKey × List (String × Layout))) (n : Nat) : Prop :=
  ∃ (place : Nat) (key : VariantKey) (variant : List (String × Layout)),
    layouts[place]? = some (key, variant) ∧ FieldsSpan variant n

theorem spans_optional_null {inner : Layout} (h : inner.read.Exact) : (optional inner).Spans 1 :=
  ⟨[0], .null, (yields_read_optional_iff h).mpr (Or.inl ⟨rfl, rfl⟩), rfl⟩

theorem Spans.optional {inner : Layout} {n : Nat} (hspans : inner.Spans n) (h : inner.read.Exact) :
    (optional inner).Spans (1 + n) := by
  obtain ⟨held, v, hheld, rfl⟩ := hspans
  exact ⟨1 :: held, v, (yields_read_optional_iff h).mpr (Or.inr ⟨held, rfl, hheld⟩), Nat.add_comm _ _⟩

theorem spans_array_nil {count : CountWidth} {element : Layout} (h : element.read.Exact) :
    (array count element).Spans count.bytes := by
  refine ⟨Bytes.bigEndian count.bytes 0, .array [], (yields_read_array_iff h).mpr ?_,
    Bytes.length_bigEndian _ _⟩
  exact ⟨[], [], rfl, Nat.zero_le _, (List.append_nil _).symm, rfl⟩

theorem Spans.array {count : CountWidth} {element : Layout} {n : Nat} (hspans : element.Spans n)
    (h : element.read.Exact) : (array count element).Spans (count.bytes + n) := by
  obtain ⟨held, v, hheld, rfl⟩ := hspans
  have hlimit : 1 ≤ count.limit := by cases count <;> decide
  refine ⟨Bytes.bigEndian count.bytes 1 ++ held, .array [v], (yields_read_array_iff h).mpr ?_, ?_⟩
  · exact ⟨[v], held, rfl, hlimit, rfl, held, [], (List.append_nil held).symm, hheld, rfl⟩
  · rw [List.length_append, Bytes.length_bigEndian]

theorem fieldsSpan_nil : FieldsSpan [] 0 := ⟨[], [], rfl, rfl⟩

theorem Spans.cons {name : String} {layout : Layout} {layouts : List (String × Layout)} {m n : Nat}
    (hm : layout.Spans m) (hn : FieldsSpan layouts n) :
    FieldsSpan ((name, layout) :: layouts) (m + n) := by
  obtain ⟨first, v, hfirst, rfl⟩ := hm
  obtain ⟨fields, second, hsecond, rfl⟩ := hn
  exact ⟨(name, v) :: fields, first ++ second, ⟨rfl, first, second, rfl, hfirst, hsecond⟩,
    List.length_append⟩

theorem FieldsSpan.head {key : VariantKey} {variant : List (String × Layout)}
    {others : List (VariantKey × List (String × Layout))} {n : Nat} (h : FieldsSpan variant n) :
    VariantsSpan ((key, variant) :: others) n :=
  ⟨0, key, variant, rfl, h⟩

theorem VariantsSpan.tail {first : VariantKey × List (String × Layout)}
    {others : List (VariantKey × List (String × Layout))} {n : Nat} (h : VariantsSpan others n) :
    VariantsSpan (first :: others) n := by
  obtain ⟨place, key, variant, hget, hfields⟩ := h
  exact ⟨place + 1, key, variant, hget, hfields⟩

section

variable {discriminant : String}

theorem exists_spans_of_conforms {schema : Schema} {layout : Layout} {v : Value}
    (h : Compiles (fun _ => False) discriminant schema layout) (hv : schema.Conforms discriminant v) :
    ∃ n, layout.Spans n := by
  obtain ⟨held, hheld⟩ := (gives_read_iff h).mpr hv
  exact ⟨held.length, held, v, hheld, rfl⟩

theorem FieldsSpan.record {schemas : List (String × Schema)} {layouts : List (String × Layout)} {n : Nat}
    (hspans : FieldsSpan layouts n) (h : CompilesFields (fun _ => False) discriminant schemas layouts)
    (hnames : (schemas.map Prod.fst).Nodup) : (record layouts).Spans n := by
  obtain ⟨fields, held, hfields, rfl⟩ := hspans
  exact ⟨held, .object fields, (yields_read_record_iff h hnames).mpr ⟨fields, rfl, hfields⟩, rfl⟩

theorem VariantsSpan.union {variants : List (String × List (String × Schema))}
    {layouts : List (VariantKey × List (String × Layout))} {indices : List (String × UInt8)} {n : Nat}
    (hspans : VariantsSpan layouts n)
    (h : CompilesVariants (fun _ => False) discriminant variants layouts)
    (hmany : variants.length ≤ Schema.maxVariants) :
    (union discriminant layouts indices).Spans (1 + n) := by
  obtain ⟨place, key, variant, hget, fields, held, hfields, rfl⟩ := hspans
  have hplace : (UInt8.ofNat place).toNat = place := by
    have hlt := (List.getElem?_eq_some_iff.mp hget).1
    exact UInt8.toNat_ofNat_of_lt' (Nat.lt_of_lt_of_le (h.length_eq ▸ hlt) hmany)
  refine ⟨UInt8.ofNat place :: held, .object ((discriminant, .string key.tag) :: fields), ?_,
    Nat.add_comm _ _⟩
  refine (yields_read_union_iff (exact_readVariant h)).mpr ⟨_, held, rfl, ?_⟩
  rw [hplace]
  exact (yields_readVariant_iff h).mpr ⟨key, variant, fields, hget, rfl, hfields⟩

mutual

theorem exists_spans : ∀ {schema : Schema} {layout : Layout},
    Compiles (fun _ => False) discriminant schema layout → ∃ n, layout.Spans n
  | .scalar type, _, .scalar _ => by
    have hvalue : ∃ v, type.Holds v := by
      cases type with
      | string => exact ⟨.string "", "", Nat.zero_le _, rfl⟩
      | float32 => exact ⟨.f32 ⟨0⟩, ⟨0⟩, rfl⟩
      | float64 => exact ⟨.f64 ⟨0⟩, ⟨0⟩, rfl⟩
      | _ => exact ⟨_, default, rfl⟩
    obtain ⟨v, hv⟩ := hvalue
    exact @exists_spans_of_conforms discriminant _ _ v (.scalar type) hv
  | .enum labels, _, .enum h => by
    obtain ⟨l, hl⟩ := List.exists_mem_of_ne_nil labels h.nonempty
    exact @exists_spans_of_conforms discriminant _ _ (.string l.1) (.enum h)
      ⟨l.1, List.mem_map_of_mem hl, rfl⟩
  | .numberEnum labels, _, .numberEnum h => by
    obtain ⟨l, hl⟩ := List.exists_mem_of_ne_nil labels h.nonempty
    exact @exists_spans_of_conforms discriminant _ _ (.i32 l.1) (.numberEnum h)
      ⟨l.1, List.mem_map_of_mem hl, rfl⟩
  | .bitmask flags, _, .bitmask h => by
    let fields := (Schema.flagNames flags).map fun name => (name, Value.bool false)
    apply @exists_spans_of_conforms discriminant _ _ (.object fields) (.bitmask h)
    refine ⟨fields, rfl, ?_, ?_⟩
    · rw [List.map_map]
      exact List.map_id _
    · intro f hf
      obtain ⟨name, -, rfl⟩ := List.mem_map.mp hf
      exact ⟨false, rfl⟩
  | _, _, .extension _ he => he.elim
  | _, _, .optional _ h => ⟨1, spans_optional_null (exact_read h)⟩
  | _, _, .array h => ⟨_, spans_array_nil (exact_read h)⟩
  | _, _, .union hne hmany _ h => by
    obtain ⟨n, hn⟩ := exists_variantsSpan h hne
    exact ⟨1 + n, hn.union h hmany⟩
  | _, _, .record hnames h => by
    obtain ⟨n, hn⟩ := exists_fieldsSpan h
    exact ⟨n, hn.record h hnames⟩

theorem exists_fieldsSpan : ∀ {schemas : List (String × Schema)} {layouts : List (String × Layout)},
    CompilesFields (fun _ => False) discriminant schemas layouts → ∃ n, FieldsSpan layouts n
  | _, _, .nil => ⟨0, fieldsSpan_nil⟩
  | _, _, .cons h hs => by
    obtain ⟨m, hm⟩ := exists_spans h
    obtain ⟨n, hn⟩ := exists_fieldsSpan hs
    exact ⟨m + n, hm.cons hn⟩

theorem exists_variantsSpan : ∀ {variants : List (String × List (String × Schema))}
    {layouts : List (VariantKey × List (String × Layout))},
    CompilesVariants (fun _ => False) discriminant variants layouts → variants ≠ [] →
    ∃ n, VariantsSpan layouts n
  | _, _, .nil, hne => absurd rfl hne
  | _, _, .cons _ h _, _ => by
    obtain ⟨n, hn⟩ := exists_fieldsSpan h
    exact ⟨n, hn.head⟩

end

theorem length_of_fixedSize? {schema : Schema} {layout : Layout}
    (h : Compiles (fun _ => False) discriminant schema layout) {n : Nat}
    (hn : layout.fixedSize? = some n) {held : List UInt8} {v : Value}
    (hv : layout.read.Yields held v) : held.length = n := by
  obtain ⟨out, hout, hrewrites⟩ := bytes?_of_yields h hv
  rw [← output?_write h] at hout
  have hsize := size_of_output? (h.mono fun _ => False.elim) hout
  rw [← hrewrites.length_eq]
  exact size_of_fixedSize? hn hsize

theorem spans_of_fixedSize? {schema : Schema} {layout : Layout}
    (h : Compiles (fun _ => False) discriminant schema layout) {n : Nat}
    (hn : layout.fixedSize? = some n) : layout.Spans n := by
  obtain ⟨_, held, v, hv, rfl⟩ := exists_spans h
  exact ⟨held, v, hv, length_of_fixedSize? h hn hv⟩

theorem fieldsSpan_of_fixedFieldsSize? : ∀ {schemas : List (String × Schema)}
    {layouts : List (String × Layout)},
    CompilesFields (fun _ => False) discriminant schemas layouts → ∀ {n : Nat},
    fixedFieldsSize? layouts = some n → FieldsSpan layouts n
  | _, _, .nil, _, hn => by
    cases hn
    exact fieldsSpan_nil
  | _, _, .cons h hs, n, hn => by
    obtain ⟨first, hfirst, hn⟩ := Option.bind_eq_some_iff.mp hn
    obtain ⟨others, hothers, hn⟩ := Option.bind_eq_some_iff.mp hn
    cases hn
    exact (spans_of_fixedSize? h hfirst).cons (fieldsSpan_of_fixedFieldsSize? hs hothers)

theorem variantsSpan_of_mem_sizes : ∀ {variants : List (String × List (String × Schema))}
    {layouts : List (VariantKey × List (String × Layout))},
    CompilesVariants (fun _ => False) discriminant variants layouts → ∀ {n : Nat},
    some n ∈ fixedVariantSizes layouts → VariantsSpan layouts n
  | _, _, .nil, _, hn => absurd hn List.not_mem_nil
  | _, _, .cons _ h hs, n, hn => by
    rcases List.mem_cons.mp hn with hfirst | hrest
    · exact (fieldsSpan_of_fixedFieldsSize? h hfirst.symm).head
    · exact (variantsSpan_of_mem_sizes hs hrest).tail

theorem commonSize?_eq_none {sizes : List (Option Nat)} (hne : sizes ≠ [])
    (h : commonSize? sizes = none) :
    none ∈ sizes ∨ ∃ m n, m ≠ n ∧ some m ∈ sizes ∧ some n ∈ sizes := by
  match sizes, h with
  | none :: _, _ => exact Or.inl List.mem_cons_self
  | some n :: rest, h =>
    rw [commonSize?, ite_eq_right_iff] at h
    obtain ⟨size, hmem, hsize⟩ : ∃ size ∈ rest, size ≠ some n := by
      by_contra hall
      push Not at hall
      cases h (List.all_eq_true.mpr fun size hmem => beq_iff_eq.mpr (hall size hmem))
    cases size with
    | none => exact Or.inl (List.mem_cons_of_mem _ hmem)
    | some m =>
      refine Or.inr ⟨m, n, fun heq => hsize (congrArg some heq), ?_, List.mem_cons_self⟩
      exact List.mem_cons_of_mem _ hmem

theorem exists_spans_pos {schema : Schema} {layout : Layout}
    (h : Compiles (fun _ => False) discriminant schema layout) (hempty : layout.fixedSize? ≠ some 0)
    (hvaries : layout.fixedSize? = none → Varies layout.Spans) : ∃ n, 0 < n ∧ layout.Spans n := by
  cases hn : layout.fixedSize? with
  | none => exact (hvaries hn).exists_pos
  | some n =>
    refine ⟨n, Nat.pos_of_ne_zero ?_, spans_of_fixedSize? h hn⟩
    rintro rfl
    exact hempty hn

mutual

/-- A layout has a fixed size unless its values differ in length. -/
theorem varies_of_fixedSize?_eq_none : ∀ {schema : Schema} {layout : Layout},
    Compiles (fun _ => False) discriminant schema layout → layout.Filled →
    layout.fixedSize? = none → Varies layout.Spans
  | _, _, .scalar type, _, hn => by
    cases type with
    | string =>
      refine ⟨2, 4, by decide, ⟨[0, 0], .string "", ?_, rfl⟩, [0, 1, 0, 97], .string "a", ?_, rfl⟩
      · exact exact_text.map_yields_iff.mpr ⟨"", yields_text_iff.mpr ⟨Nat.zero_le _, rfl⟩, rfl⟩
      · exact exact_text.map_yields_iff.mpr ⟨"a", yields_text_iff.mpr ⟨by decide, rfl⟩, rfl⟩
    | _ => cases hn
  | _, _, .extension _ he, _, _ => he.elim
  | _, _, .enum _, _, hn | _, _, .numberEnum _, _, hn | _, _, .bitmask _, _, hn => nomatch hn
  -- Around an optional and an array it is enough that one value inside takes bytes.
  | _, _, .optional _ h, hfilled, _ => by
    obtain ⟨n, hpos, hn⟩ := exists_spans_pos h hfilled.1 (varies_of_fixedSize?_eq_none h hfilled.2)
    exact ⟨1, 1 + n, by omega, spans_optional_null (exact_read h), hn.optional (exact_read h)⟩
  | _, _, .array h, hfilled, _ => by
    obtain ⟨n, hpos, hn⟩ := exists_spans_pos h hfilled.1 (varies_of_fixedSize?_eq_none h hfilled.2)
    exact ⟨_, _, by omega, spans_array_nil (exact_read h), hn.array (exact_read h)⟩
  | _, .union _ layouts _, .union hne hmany _ h, hfilled, hn => by
    have hsizes : fixedVariantSizes layouts ≠ [] := by
      cases h with
      | nil => exact absurd rfl hne
      | cons _ _ _ => exact List.cons_ne_nil _ _
    -- Either one variant varies in itself, or two of them are fixed at different sizes.
    rcases commonSize?_eq_none hsizes (Option.map_eq_none_iff.mp hn) with hnone | ⟨m, n, hmn, hm, hn⟩
    · exact (variants_vary h hfilled hnone).add 1 fun n hn => hn.union h hmany
    · refine ⟨1 + m, 1 + n, by omega, ?_, ?_⟩
      · exact (variantsSpan_of_mem_sizes h hm).union h hmany
      · exact (variantsSpan_of_mem_sizes h hn).union h hmany
  | _, _, .record hnames h, hfilled, hn => by
    refine (fields_vary h hfilled hn).add 0 fun n hspan => ?_
    rw [Nat.zero_add]
    exact hspan.record h hnames

theorem fields_vary : ∀ {schemas : List (String × Schema)} {layouts : List (String × Layout)},
    CompilesFields (fun _ => False) discriminant schemas layouts → FieldsFilled layouts →
    fixedFieldsSize? layouts = none → Varies (FieldsSpan layouts)
  | _, _, .nil, _, hn => nomatch hn
  | _, .cons (_, layout) layouts, .cons h hs, hfilled, hn => by
    cases hfirst : layout.fixedSize? with
    | none =>
      obtain ⟨k, hk⟩ := exists_fieldsSpan hs
      refine (varies_of_fixedSize?_eq_none h hfilled.1 hfirst).add k fun n hspan => ?_
      rw [Nat.add_comm]
      exact hspan.cons hk
    | some k =>
      have hothers : fixedFieldsSize? layouts = none := by
        cases hothers : fixedFieldsSize? layouts with
        | none => rfl
        | some others => simp [fixedFieldsSize?, hfirst, hothers] at hn
      exact (fields_vary hs hfilled.2 hothers).add k fun n hspan =>
        (spans_of_fixedSize? h hfirst).cons hspan

theorem variants_vary : ∀ {variants : List (String × List (String × Schema))}
    {layouts : List (VariantKey × List (String × Layout))},
    CompilesVariants (fun _ => False) discriminant variants layouts → VariantsFilled layouts →
    none ∈ fixedVariantSizes layouts → Varies (VariantsSpan layouts)
  | _, _, .nil, _, hnone => absurd hnone List.not_mem_nil
  | _, _, .cons _ h hs, hfilled, hnone => by
    rcases List.mem_cons.mp hnone with hfirst | hrest
    · obtain ⟨m, n, hne, hm, hn⟩ := fields_vary h hfilled.1 hfirst.symm
      exact ⟨m, n, hne, hm.head, hn.head⟩
    · obtain ⟨m, n, hne, hm, hn⟩ := variants_vary hs hfilled.2 hrest
      exact ⟨m, n, hne, hm.tail, hn.tail⟩

end

end

end Layout

namespace Codec

variable {types : Extensions} {discriminant : String} {schema : Schema} {c : Codec}

theorem isPlain_of_fixedSize? {n : Nat} (h : c.fixedSize? = some n) : c.IsPlain :=
  Layout.extensionNames_of_fixedSize? h

theorem length_of_encode {v : Value} {out : List UInt8} (h : c.encode v = .ok out) :
    c.size v = .ok out.length := by
  rw [encode_eq] at h
  obtain ⟨size, hsize, h⟩ := bind_eq_ok_iff.mp h
  obtain ⟨_, -, h⟩ := bind_eq_ok_iff.mp h
  split at h
  · rename_i hposition
    cases h
    rw [hsize, Writer.toList, Array.length_toList]
    exact congrArg Except.ok hposition.symm
  · cases h

theorem exists_encode_of_yields (h : Compiles (fun _ => False) discriminant schema c.layout)
    {held : List UInt8} {v : Value} (hv : c.layout.read.Yields held v) :
    ∃ out, c.encode v = .ok out ∧ out.length = held.length := by
  obtain ⟨out, hout, hrewrites⟩ := Layout.bytes?_of_yields h hv
  refine ⟨out, ?_, hrewrites.length_eq⟩
  rw [encode_eq_ok_iff (h.mono fun _ => False.elim), Layout.output?_write h, hout]

/-- A fixed size is the size of every value, the length of every encoding and the number of bytes that
every read consumes. Without it, and unless an optional or an array holds what is always empty, the
encodings of two values differ in length. -/
theorem fixedSize?_sound_and_complete (h : ofSchema types discriminant schema = .ok c) :
    (∀ n, c.fixedSize? = some n →
      (∀ v m, c.size v = .ok m → m = n) ∧
      (∀ v out, c.encode v = .ok out → out.length = n) ∧
      ∀ cursor v cursor', c.decodeFrom cursor = (.ok v, cursor') →
        cursor'.position = cursor.position + n ∧
          ∃ taken, taken.length = n ∧ cursor.rest = taken ++ cursor'.rest) ∧
    (c.IsPlain → c.layout.Filled → c.fixedSize? = none →
      ∃ v w out out', c.encode v = .ok out ∧ c.encode w = .ok out' ∧ out.length ≠ out'.length) := by
  constructor
  · intro n hn
    have hc : Compiles (fun _ => False) discriminant schema c.layout :=
      (isPlain_of_fixedSize? hn).compiles h
    refine ⟨fun v m hm => Layout.size_of_fixedSize? hn hm,
      fun v out hout => Layout.size_of_fixedSize? hn (length_of_encode hout), ?_⟩
    intro cursor v cursor' hrun
    obtain ⟨taken, hrest, hposition, hv⟩ := Layout.exact_read hc _ _ _ hrun
    have hlength := Layout.length_of_fixedSize? hc hn hv
    exact ⟨hlength ▸ hposition, taken, hlength, hrest⟩
  · intro hplain hfilled hn
    have hc : Compiles (fun _ => False) discriminant schema c.layout := hplain.compiles h
    obtain ⟨_, _, hne, ⟨held, v, hv, rfl⟩, held', w, hw, rfl⟩ :=
      Layout.varies_of_fixedSize?_eq_none hc hfilled hn
    obtain ⟨out, hout, hlength⟩ := exists_encode_of_yields hc hv
    obtain ⟨out', hout', hlength'⟩ := exists_encode_of_yields hc hw
    exact ⟨v, w, out, out', hout, hout', by rwa [hlength, hlength']⟩

private def tick : Schema :=
  .record [("at", .scalar .uint16),
    ("beat", .union [("strong", [("force", .scalar .uint8)]), ("weak", [("swing", .scalar .int8)])])]

private def tickCodec : Codec :=
  .ofLayout ∅ tick (.record [("at", .scalar .uint16),
    ("beat", .union "type" [(⟨"strong", 0⟩, [("force", .scalar .uint8)]),
      (⟨"weak", 1⟩, [("swing", .scalar .int8)])] [("strong", 0), ("weak", 1)])])

private def weakTick : Value :=
  .object [("at", .u16 7), ("beat", .object [("type", .string "weak"), ("swing", .i8 2)])]

private def level : Codec :=
  .ofLayout ∅ (.optional (.scalar .uint8)) (.optional (.scalar .uint8))

theorem fixedSize?_sound_and_complete_tick :
    (ofSchema ∅ "type" tick = .ok tickCodec ∧ tickCodec.fixedSize? = some 4 ∧
      tickCodec.size weakTick = .ok 4 ∧ tickCodec.encode weakTick = .ok [0, 7, 1, 2] ∧
      tickCodec.decodeFrom ⟨5, [0, 7, 1, 2, 9]⟩ = (.ok weakTick, ⟨9, [9]⟩) ∧
      (4 = 4 ∧ [0, 7, 1, 2].length = 4) ∧
      (9 = 5 + 4 ∧ ∃ taken : List UInt8, taken.length = 4 ∧ [0, 7, 1, 2, 9] = taken ++ [9])) ∧
    ofSchema ∅ "type" (.optional (.scalar .uint8)) = .ok level ∧ level.IsPlain ∧ level.layout.Filled ∧
      level.fixedSize? = none ∧ ∃ v w out out', level.encode v = .ok out ∧
        level.encode w = .ok out' ∧ out.length ≠ out'.length := by
  have htick : ofSchema ∅ "type" tick = .ok tickCodec := rfl
  have hfour : tickCodec.fixedSize? = some 4 := rfl
  have hsize : tickCodec.size weakTick = .ok 4 := rfl
  have hencode : tickCodec.encode weakTick = .ok [0, 7, 1, 2] := rfl
  have hdecode : tickCodec.decodeFrom ⟨5, [0, 7, 1, 2, 9]⟩ = (.ok weakTick, ⟨9, [9]⟩) := rfl
  have hlevel : ofSchema ∅ "type" (.optional (.scalar .uint8)) = .ok level := rfl
  have hplain : level.IsPlain := isPlain_of_empty hlevel
  have hfilled : level.layout.Filled := ⟨by decide, trivial⟩
  obtain ⟨hsizes, hlengths, hreads⟩ := (fixedSize?_sound_and_complete htick).1 4 hfour
  exact ⟨⟨htick, hfour, hsize, hencode, hdecode, ⟨hsizes _ _ hsize, hlengths _ _ hencode⟩,
    hreads _ _ _ hdecode⟩, hlevel, hplain, hfilled, rfl,
    (fixedSize?_sound_and_complete hlevel).2 hplain hfilled rfl⟩

end Codec

end WireSchema
