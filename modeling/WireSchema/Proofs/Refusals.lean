import WireSchema.Proofs.Sizing

/-! A layout that was made from a schema leads every tag to one of its variants, also when the schema is
not valid. So all that sizing and writing can complain of is the value. -/

namespace WireSchema

inductive Failure.IsRefusal : Failure → Prop
  | mismatch (path : List Step) (why : Mismatch) : IsRefusal (.mismatch path why)
  | enumLabel (label : String) : IsRefusal (.undeclared (.enumLabel label))
  | numberEnumLabel (label : Int) : IsRefusal (.undeclared (.numberEnumLabel label))
  | tag (name : String) : IsRefusal (.undeclared (.tag name))

theorem Failure.IsRefusal.within {failure : Failure} (h : failure.IsRefusal) (step : Step) :
    (failure.within step).IsRefusal := by
  cases h with
  | mismatch path why => exact .mismatch (step :: path) why
  | enumLabel label => exact .enumLabel label
  | numberEnumLabel label => exact .numberEnumLabel label
  | tag name => exact .tag name

section

variable {α β : Type} {P Q : Failure → Prop}

def FailsOnly (P : Failure → Prop) (r : Except Failure α) : Prop :=
  ∀ failure, r = .error failure → P failure

theorem failsOnly_ok (a : α) : FailsOnly P (.ok a) := fun _ h => nomatch h

theorem failsOnly_error {failure : Failure} (h : P failure) :
    FailsOnly P (.error failure : Except Failure α) := by
  intro failure' heq
  cases heq
  exact h

theorem FailsOnly.bind {r : Except Failure α} {k : α → Except Failure β} (hr : FailsOnly P r)
    (hk : ∀ a, r = .ok a → FailsOnly P (k a)) : FailsOnly P (r >>= k) := by
  cases r with
  | error failure => exact failsOnly_error (hr failure rfl)
  | ok a => exact hk a rfl

theorem FailsOnly.map {r : Except Failure α} (f : α → β) (h : FailsOnly P r) :
    FailsOnly P (f <$> r) := by
  cases r with
  | error failure => exact failsOnly_error (h failure rfl)
  | ok a => exact failsOnly_ok (f a)

theorem FailsOnly.mapError {r : Except Failure α} {f : Failure → Failure} (h : FailsOnly P r)
    (hf : ∀ failure, P failure → Q (f failure)) : FailsOnly Q (r.mapError f) := by
  cases r with
  | error failure => exact failsOnly_error (hf failure (h failure rfl))
  | ok a => exact failsOnly_ok a

theorem FailsOnly.imp {r : Except Failure α} (h : FailsOnly P r)
    (hPQ : ∀ failure, P failure → Q failure) : FailsOnly Q r :=
  fun failure hfailure => hPQ failure (h failure hfailure)

theorem failsOnly_mapM {f : α → Except Failure β} {items : List α}
    (h : ∀ a ∈ items, FailsOnly P (f a)) : FailsOnly P (items.mapM f) := by
  induction items with
  | nil => exact failsOnly_ok []
  | cons a rest ih =>
    rw [List.forall_mem_cons] at h
    rw [List.mapM_cons]
    exact h.1.bind fun _ _ => (ih h.2).bind fun _ _ => failsOnly_ok _

def Refuses (r : Except Failure α) : Prop := ∀ failure, r = .error failure → failure.IsRefusal

theorem refuses_ok (a : α) : Refuses (.ok a) := failsOnly_ok a

theorem refuses_error {failure : Failure} (h : failure.IsRefusal) :
    Refuses (.error failure : Except Failure α) := failsOnly_error h

theorem Refuses.bind {r : Except Failure α} {k : α → Except Failure β} (hr : Refuses r)
    (hk : ∀ a, r = .ok a → Refuses (k a)) : Refuses (r >>= k) := FailsOnly.bind hr hk

theorem Refuses.map {r : Except Failure α} (f : α → β) (h : Refuses r) : Refuses (f <$> r) :=
  FailsOnly.map f h

theorem Refuses.mapError_within {r : Except Failure α} (step : Step) (h : Refuses r) :
    Refuses (r.mapError (Failure.within step)) :=
  FailsOnly.mapError h fun _ hfailure => hfailure.within step

end

namespace Value

theorem refuses_expect {α : Type} (expected : Shape) (part : Value → Option α) (v : Value) :
    Refuses (v.expect expected part) := by
  unfold expect
  split
  · exact refuses_ok _
  · exact refuses_error (.mismatch _ _)

theorem refuses_expectItems (count : CountWidth) (v : Value) : Refuses (v.expectItems count) := by
  refine (refuses_expect _ _ _).bind fun items _ => ?_
  split
  · exact refuses_ok _
  · exact refuses_error (.mismatch _ _)

theorem refuses_expectVariant (discriminant : String) (indices : List (String × UInt8)) (v : Value) :
    Refuses (v.expectVariant discriminant indices) := by
  refine (refuses_expect _ _ _).bind fun fields _ => ?_
  split
  · split
    · exact refuses_ok _
    · exact refuses_error (.tag _)
  · exact refuses_error (.mismatch _ _)
  · exact refuses_error (.mismatch _ _)

theorem refuses_expectFlag (fields : List (String × Value)) (name : String) :
    Refuses (expectFlag fields name) := by
  unfold expectFlag
  split
  · exact refuses_ok _
  · exact refuses_ok _
  · exact refuses_error (.mismatch _ _)

theorem lookup_of_expectVariant {discriminant : String} {indices : List (String × UInt8)} {v : Value}
    {index : UInt8} {fields : List (String × Value)}
    (h : v.expectVariant discriminant indices = .ok (index, fields)) :
    ∃ tag, indices.lookup tag = some index := by
  rw [← toOption_eq_some_iff, toOption_expectVariant] at h
  obtain ⟨fields, -, h⟩ := Option.bind_eq_some_iff.mp h
  obtain ⟨field, -, h⟩ := Option.bind_eq_some_iff.mp h
  obtain ⟨tag, -, h⟩ := Option.bind_eq_some_iff.mp h
  obtain ⟨index, hindex, h⟩ := Option.map_eq_some_iff.mp h
  cases h
  exact ⟨tag, hindex⟩

end Value

namespace Write

variable {α : Type} {P Q : Failure → Prop}

def FailsOnly (P : Failure → Prop) (m : Write α) : Prop :=
  ∀ w : Writer, WireSchema.FailsOnly P (m.run.run w).1

theorem failsOnly_pure (a : α) : (pure a : Write α).FailsOnly P := fun _ => failsOnly_ok a

theorem failsOnly_bytes (out : List UInt8) : (bytes out).FailsOnly P := fun _ => failsOnly_ok ()

theorem failsOnly_fail {failure : Failure} (h : P failure) : (fail failure : Write α).FailsOnly P :=
  fun _ => failsOnly_error h

theorem FailsOnly.bind {m k : Write Unit} (hm : m.FailsOnly P) (hk : k.FailsOnly P) :
    (m >>= fun _ => k).FailsOnly P := by
  intro w
  rw [run_bind]
  rcases hrun : m.run.run w with ⟨failure | _, w'⟩
  · exact failsOnly_error (hm w failure (congrArg Prod.fst hrun))
  · exact hk w'

theorem failsOnly_ofExcept_bind {r : Except Failure α} {k : α → Write Unit}
    (hr : WireSchema.FailsOnly P r) (hk : ∀ a, r = .ok a → (k a).FailsOnly P) :
    (ofExcept r >>= k).FailsOnly P := by
  rw [ofExcept_bind]
  cases r with
  | error failure => exact failsOnly_fail (hr failure rfl)
  | ok a => exact hk a rfl

theorem FailsOnly.within {m : Write Unit} {step : Step} (h : m.FailsOnly P)
    (hstep : ∀ failure, P failure → Q (failure.within step)) : (Write.within step m).FailsOnly Q := by
  intro w
  rw [run_within]
  exact (h w).mapError hstep

theorem FailsOnly.imp {m : Write α} (h : m.FailsOnly P)
    (hPQ : ∀ failure, P failure → Q failure) : m.FailsOnly Q :=
  fun w => WireSchema.FailsOnly.imp (h w) hPQ

def Refuses (m : Write α) : Prop := ∀ w : Writer, WireSchema.Refuses (m.run.run w).1

theorem refuses_pure (a : α) : (pure a : Write α).Refuses := failsOnly_pure a

theorem refuses_bytes (out : List UInt8) : (bytes out).Refuses := failsOnly_bytes out

theorem refuses_fail {failure : Failure} (h : failure.IsRefusal) : (fail failure : Write α).Refuses :=
  failsOnly_fail h

theorem Refuses.bind {m k : Write Unit} (hm : m.Refuses) (hk : k.Refuses) :
    (m >>= fun _ => k).Refuses := FailsOnly.bind hm hk

theorem refuses_ofExcept_bind {r : Except Failure α} {k : α → Write Unit}
    (hr : WireSchema.Refuses r) (hk : ∀ a, r = .ok a → (k a).Refuses) :
    (ofExcept r >>= k).Refuses := failsOnly_ofExcept_bind hr hk

theorem Refuses.within {m : Write Unit} (step : Step) (h : m.Refuses) :
    (Write.within step m).Refuses :=
  FailsOnly.within h fun _ hfailure => hfailure.within step

theorem refuses_flags (set : List Bool) : (flags set).Refuses := by
  unfold flags
  split
  · exact refuses_bytes _
  · exact refuses_fail (.mismatch _ _)

end Write

theorem Scalar.refuses_write (type : Scalar) (v : Value) : (type.write v).Refuses := by
  rcases type.write_eq_bytes_or_fail v with ⟨out, hout⟩ | ⟨why, hwhy⟩
  · rw [hout]
    exact Write.refuses_bytes _
  · rw [hwhy]
    exact Write.refuses_fail (.mismatch _ _)

namespace Layout

mutual

/-- A layout without custom types in which every tag has a place among the variants of its union. -/
inductive Contained : Layout → Prop
  | scalar (type : Scalar) : Contained (.scalar type)
  | enum (table : LabelTable String) : Contained (.enum table)
  | numberEnum (table : LabelTable Int32) : Contained (.numberEnum table)
  | bitmask (flags : List String) : Contained (.bitmask flags)
  | optional {inner : Layout} : Contained inner → Contained (.optional inner)
  | array {count : CountWidth} {element : Layout} : Contained element → Contained (.array count element)
  | union {discriminant : String} {variants : List (VariantKey × List (String × Layout))}
      {indices : List (String × UInt8)} :
      (∀ tag index, indices.lookup tag = some index → index.toNat < variants.length) →
      VariantsContained variants → Contained (.union discriminant variants indices)
  | record {fields : List (String × Layout)} : FieldsContained fields → Contained (.record fields)

inductive FieldsContained : List (String × Layout) → Prop
  | nil : FieldsContained []
  | cons {name : String} {layout : Layout} {rest : List (String × Layout)} :
      Contained layout → FieldsContained rest → FieldsContained ((name, layout) :: rest)

inductive VariantsContained : List (VariantKey × List (String × Layout)) → Prop
  | nil : VariantsContained []
  | cons {key : VariantKey} {fields : List (String × Layout)}
      {rest : List (VariantKey × List (String × Layout))} :
      FieldsContained fields → VariantsContained rest → VariantsContained ((key, fields) :: rest)

end

/-- The byte of a tag may have wrapped around, but only to a lesser place. -/
theorem toNat_lt_of_lookup_placeIndices {tags : List String} {tag : String} {index : UInt8}
    (h : (Assoc.ofList (placeIndices 0 tags)).lookup tag = some index) : index.toNat < tags.length := by
  obtain ⟨i, hi, rfl⟩ := mem_placeIndices_iff.mp (Assoc.mem_of_lookup_ofList h)
  obtain ⟨hlt, -⟩ := List.getElem?_eq_some_iff.mp hi
  calc (UInt8.ofNat i).toNat = i % 2 ^ 8 := UInt8.toNat_ofNat'
    _ ≤ i := Nat.mod_le i _
    _ < tags.length := hlt

section

variable {types : Extensions} {discriminant : String}

mutual

theorem contained_of_ofSchema : ∀ {schema : Schema} {layout : Layout},
    ofSchema types discriminant schema = .ok layout → layout.extensionNames = [] → Contained layout
  | .scalar type, layout, h, hplain => by
    rw [ofSchema] at h
    split at h
    · cases h
      cases hplain
    · cases h
      exact .scalar type
  | .custom name, layout, h, hplain => by
    rw [ofSchema] at h
    split at h
    · cases h
      cases hplain
    · cases h
  | .enum _, _, h, _ => by
    cases h
    exact .enum _
  | .numberEnum _, _, h, _ => by
    cases h
    exact .numberEnum _
  | .bitmask _, _, h, _ => by
    cases h
    exact .bitmask _
  | .optional inner, _, h, hplain => by
    rw [ofSchema] at h
    obtain ⟨layout, hinner, rfl⟩ := map_eq_ok_iff.mp h
    exact .optional (contained_of_ofSchema hinner hplain)
  | .array count element, _, h, hplain => by
    rw [ofSchema] at h
    obtain ⟨layout, helement, rfl⟩ := map_eq_ok_iff.mp h
    exact .array (contained_of_ofSchema helement hplain)
  | .union variants, _, h, hplain => by
    rw [ofSchema] at h
    obtain ⟨layouts, hvariants, h⟩ := bind_eq_ok_iff.mp h
    cases h
    refine .union (fun tag index hindex => ?_) (contained_of_ofVariants hvariants hplain)
    rw [tagIndices_of_ofVariants hvariants] at hindex
    rw [length_of_ofVariants hvariants, ← variants.length_map Prod.fst]
    exact toNat_lt_of_lookup_placeIndices hindex
  | .record fields, _, h, hplain => by
    rw [ofSchema] at h
    obtain ⟨layouts, hfields, rfl⟩ := map_eq_ok_iff.mp h
    exact .record (contained_of_ofFields hfields hplain)

theorem contained_of_ofFields : ∀ {fields : List (String × Schema)} {layouts : List (String × Layout)},
    ofFields types discriminant fields = .ok layouts → fieldsExtensionNames layouts = [] →
    FieldsContained layouts
  | [], _, h, _ => by
    cases h
    exact .nil
  | (name, schema) :: rest, _, h, hplain => by
    rw [ofFields] at h
    obtain ⟨layout, hlayout, h⟩ := bind_eq_ok_iff.mp h
    obtain ⟨layouts, hrest, h⟩ := bind_eq_ok_iff.mp h
    cases h
    obtain ⟨hfirst, hothers⟩ := List.append_eq_nil_iff.mp hplain
    exact .cons (contained_of_ofSchema hlayout hfirst) (contained_of_ofFields hrest hothers)

theorem contained_of_ofVariants : ∀ {place : Nat} {variants : List (String × List (String × Schema))}
    {layouts : List (VariantKey × List (String × Layout))},
    ofVariants types discriminant place variants = .ok layouts → variantsExtensionNames layouts = [] →
    VariantsContained layouts
  | _, [], _, h, _ => by
    cases h
    exact .nil
  | _, (tag, fields) :: rest, _, h, hplain => by
    rw [ofVariants] at h
    obtain ⟨layout, hlayout, h⟩ := bind_eq_ok_iff.mp h
    obtain ⟨layouts, hrest, h⟩ := bind_eq_ok_iff.mp h
    cases h
    obtain ⟨hfirst, hothers⟩ := List.append_eq_nil_iff.mp hplain
    exact .cons (contained_of_ofFields hlayout hfirst) (contained_of_ofVariants hrest hothers)

end

end

theorem refuses_sumSizes {size : Value → Except Failure Nat} (h : ∀ v, Refuses (size v))
    (items : List Value) : Refuses (sumSizes size items) := by
  induction items with
  | nil => exact refuses_ok 0
  | cons v rest ih => exact (h v).bind fun _ _ => ih.bind fun _ _ => refuses_ok _

theorem refuses_writeItems {write : Value → Write Unit} (h : ∀ v, (write v).Refuses) (index : Nat)
    (items : List Value) : (writeItems write index items).Refuses := by
  induction items generalizing index with
  | nil => exact Write.refuses_pure ()
  | cons v rest ih => exact ((h v).within (.element index)).bind (ih (index + 1))

theorem failsOnly_writeCount {P : Failure → Prop} (count : CountWidth) (n : Nat) :
    (writeCount count n).FailsOnly P := by
  cases count with
  | one | two => exact Write.failsOnly_bytes _

theorem failsOnly_writeOrdinal {P : Failure → Prop} (ordinal : Option UInt8) {unknown : Undeclared}
    (h : ordinal = none → P (.undeclared unknown)) : (writeOrdinal ordinal unknown).FailsOnly P := by
  cases ordinal with
  | none => exact Write.failsOnly_fail (h rfl)
  | some byte => exact Write.failsOnly_bytes _

mutual

theorem Contained.refuses_size : ∀ {layout : Layout}, Contained layout → ∀ v, Refuses (layout.size v)
  | _, .scalar type, v => by
    rw [size]
    split
    · exact refuses_ok _
    · exact (v.refuses_expect _ _).map _
  | _, .enum _, _ | _, .numberEnum _, _ | _, .bitmask _, _ => refuses_ok 1
  | _, .optional h, v => by
    rw [size]
    split
    · exact refuses_ok 1
    · exact (h.refuses_size v).map _
  | .array _ element, .array h, v => by
    refine (v.refuses_expectItems _).bind fun items _ => ?_
    split
    · exact refuses_ok _
    · exact (refuses_sumSizes h.refuses_size items).map _
  | _, .union hindices h, v => by
    refine (v.refuses_expectVariant _ _).bind fun (index, fields) hvariant => ?_
    obtain ⟨tag, hindex⟩ := Value.lookup_of_expectVariant hvariant
    exact (h.refuses_variantSize index (hindices tag index hindex) fields).map _
  | _, .record h, v => (v.refuses_expect _ _).bind fun fields _ => h.refuses_fieldsSize fields

theorem FieldsContained.refuses_fieldsSize : ∀ {layouts : List (String × Layout)},
    FieldsContained layouts → ∀ fields, Refuses (fieldsSize layouts fields)
  | _, .nil, _ => refuses_ok 0
  | _, .cons h hs, fields =>
    ((h.refuses_size _).mapError_within _).bind fun _ _ =>
      (hs.refuses_fieldsSize fields).bind fun _ _ => refuses_ok _

theorem VariantsContained.refuses_variantSize : ∀ {variants : List (VariantKey × List (String × Layout))},
    VariantsContained variants → ∀ index {place : Nat}, place < variants.length → ∀ fields,
    Refuses (variantSize index variants place fields)
  | _, .nil, _, _, hplace, _ => nomatch hplace
  | _, .cons h _, _, 0, _, fields => h.refuses_fieldsSize fields
  | _, .cons _ hs, index, _ + 1, hplace, fields =>
    hs.refuses_variantSize index (Nat.lt_of_succ_lt_succ hplace) fields

end

mutual

theorem Contained.refuses_write : ∀ {layout : Layout}, Contained layout → ∀ v, (layout.write v).Refuses
  | _, .scalar type, v => type.refuses_write v
  | _, .enum _, v =>
    Write.refuses_ofExcept_bind (v.refuses_expect _ _) fun label _ =>
      failsOnly_writeOrdinal _ fun _ => .enumLabel label
  | _, .numberEnum _, v =>
    Write.refuses_ofExcept_bind (v.refuses_expect _ _) fun label _ =>
      failsOnly_writeOrdinal _ fun _ => .numberEnumLabel label
  | _, .bitmask _, v =>
    Write.refuses_ofExcept_bind (v.refuses_expect _ _) fun fields _ =>
      Write.refuses_ofExcept_bind (failsOnly_mapM fun name _ => Value.refuses_expectFlag fields name) fun set _ =>
        Write.refuses_flags set
  | _, .optional h, v => by
    rw [write]
    split
    · exact Write.refuses_bytes _
    · exact (Write.refuses_bytes _).bind (h.refuses_write v)
  | _, .array h, v =>
    Write.refuses_ofExcept_bind (v.refuses_expectItems _) fun items _ =>
      Write.Refuses.bind (failsOnly_writeCount _ _) (refuses_writeItems h.refuses_write 0 items)
  | _, .union hindices h, v => by
    refine Write.refuses_ofExcept_bind (v.refuses_expectVariant _ _) fun (index, fields) hvariant => ?_
    obtain ⟨tag, hindex⟩ := Value.lookup_of_expectVariant hvariant
    exact (Write.refuses_bytes _).bind
      (h.refuses_writeVariant index (hindices tag index hindex) fields)
  | _, .record h, v =>
    Write.refuses_ofExcept_bind (v.refuses_expect _ _) fun fields _ => h.refuses_writeFields fields

theorem FieldsContained.refuses_writeFields : ∀ {layouts : List (String × Layout)},
    FieldsContained layouts → ∀ fields, (writeFields layouts fields).Refuses
  | _, .nil, _ => Write.refuses_pure ()
  | _, .cons h hs, fields => ((h.refuses_write _).within _).bind (hs.refuses_writeFields fields)

theorem VariantsContained.refuses_writeVariant : ∀ {variants : List (VariantKey × List (String × Layout))},
    VariantsContained variants → ∀ index {place : Nat}, place < variants.length → ∀ fields,
    (writeVariant index variants place fields).Refuses
  | _, .nil, _, _, hplace, _ => nomatch hplace
  | _, .cons h _, _, 0, _, fields => h.refuses_writeFields fields
  | _, .cons _ hs, index, _ + 1, hplace, fields =>
    hs.refuses_writeVariant index (Nat.lt_of_succ_lt_succ hplace) fields

end

end Layout

namespace Codec

variable {types : Extensions} {discriminant : String} {schema : Schema} {c : Codec}

theorem IsPlain.contained (hplain : c.IsPlain) (h : ofSchema types discriminant schema = .ok c) :
    Layout.Contained c.layout := by
  obtain ⟨-, layout, hlayout, rfl⟩ := ofSchema_eq_ok_iff.mp h
  exact Layout.contained_of_ofSchema hlayout hplain

theorem failsOnly_encode {P : Failure → Prop}
    (h : Compiles Extension.Honest discriminant schema c.layout) {v : Value}
    (hsizing : FailsOnly P (c.size v)) (hwriting : (c.layout.write v).FailsOnly P) :
    FailsOnly P (c.encode v) := by
  have hsteady := Layout.steady_write (fun _ he => he.steady) h v
  rw [encode_eq]
  refine hsizing.bind fun n hn => ?_
  refine FailsOnly.bind (hwriting (Writer.ofSize n)) fun _ hwrite => ?_
  rcases hsteady with ⟨out, happends⟩ | hfails
  · obtain ⟨w, hrun, hw⟩ := happends (Writer.ofSize n)
    have hsize : n = out.length := Except.ok.inj (hn.symm.trans (Layout.size_of_output? h happends.output?))
    have hposition : w.position = n := by
      have hlist : w.toList = out := hw
      rw [hsize, ← hlist]
      exact w.bytes.length_toList.symm
    rw [encodeInto, hrun, if_pos hposition]
    exact failsOnly_ok _
  · obtain ⟨failure, w, hrun, -⟩ := hfails (Writer.ofSize n)
    rw [encodeInto, hrun] at hwrite
    cases hwrite

/-- Without custom types a value that is not encoded is to blame, never its size. -/
theorem refuses_encode (h : ofSchema types discriminant schema = .ok c) (hplain : c.IsPlain) (v : Value) :
    Refuses (c.encode v) := by
  have hcontained := hplain.contained h
  exact failsOnly_encode (hplain.compiles h) (hcontained.refuses_size v) (hcontained.refuses_write v)

end Codec

end WireSchema
