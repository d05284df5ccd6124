import Mathlib.Data.List.Forall2
import WireSchema.Proofs.Compiled
import WireSchema.Proofs.Scalars

/-! Every layout writes steadily if the custom types in it do, and then the bytes of a value are put
together from the bytes of its parts. -/

namespace WireSchema

theorem mapM_eq_some_iff_forall₂ {α β : Type} {f : α → Option β} {items : List α} {parts : List β} :
    items.mapM f = some parts ↔ List.Forall₂ (fun a b => f a = some b) items parts := by
  induction items generalizing parts with
  | nil =>
    rw [List.mapM_nil, List.forall₂_nil_left_iff]
    exact ⟨fun h => (Option.some.inj h).symm, fun h => h ▸ rfl⟩
  | cons a rest ih =>
    rw [List.mapM_cons]
    simp only [Option.bind_eq_bind, Option.bind_eq_some_iff, Option.pure_def, Option.some.injEq, ih,
      List.forall₂_cons_left_iff]
    constructor
    · rintro ⟨b, hb, others, hothers, rfl⟩
      exact ⟨b, others, hb, hothers, rfl⟩
    · rintro ⟨b, others, hb, hothers, rfl⟩
      exact ⟨b, hb, others, hothers, rfl⟩

theorem mapM_map_of_forall {α β γ : Type} {f : α → β} {g : β → Option γ} {part : α → Option γ}
    {items : List α} (h : ∀ a ∈ items, g (f a) = part a) :
    (items.map f).mapM g = items.mapM part := by
  induction items with
  | nil => rfl
  | cons a rest ih =>
    rw [List.forall_mem_cons] at h
    rw [List.map_cons, List.mapM_cons, List.mapM_cons, h.1, ih h.2]

namespace Value

theorem toOption_expectItems (count : CountWidth) (v : Value) :
    (v.expectItems count).toOption = v.items?.bind fun items =>
      if items.length ≤ count.limit then some items else none := by
  unfold expectItems expect
  cases v.items? with
  | none => rfl
  | some items =>
    change (ite _ _ _ : Except Failure (List Value)).toOption = ite _ _ _
    split <;> rfl

theorem toOption_expectVariant (discriminant : String) (indices : List (String × UInt8)) (v : Value) :
    (v.expectVariant discriminant indices).toOption = v.fields?.bind fun fields =>
      (fields.lookup discriminant).bind fun tag => tag.toString?.bind fun tag =>
        (indices.lookup tag).map fun index => (index, fields) := by
  unfold expectVariant expect
  cases v.fields? with
  | none => rfl
  | some fields =>
    simp only [bind, Except.bind, Option.bind_some]
    cases fields.lookup discriminant with
    | none => rfl
    | some tag =>
      cases tag
      case string tag =>
        simp only [Option.bind_some, toString?]
        cases indices.lookup tag <;> rfl
      all_goals rfl

end Value

namespace Layout

open Write

variable {item : Value → Write Unit}

theorem steady_writeCount (count : CountWidth) (n : Nat) : (writeCount count n).Steady := by
  cases count with
  | one | two => exact steady_bytes _

theorem steady_writeItems (h : ∀ v, (item v).Steady) (index : Nat) (items : List Value) :
    (writeItems item index items).Steady := by
  induction items generalizing index with
  | nil => exact steady_pure
  | cons v rest ih => exact ((h v).within (.element index)).bind (ih (index + 1))

theorem steady_writeOrdinal (ordinal : Option UInt8) (unknown : Undeclared) :
    (writeOrdinal ordinal unknown).Steady := by
  cases ordinal with
  | none => exact steady_fail _
  | some byte => exact steady_u8 byte

theorem steady_flags (set : List Bool) : (flags set).Steady := by
  unfold flags
  split
  · exact steady_u8 _
  · exact steady_fail _

section

variable {E : Extension → Prop} {discriminant : String}

mutual

theorem steady_write (hE : ∀ e, E e → ∀ v, (e.write v).Steady) :
    ∀ {schema : Schema} {layout : Layout},
    Compiles E discriminant schema layout → ∀ v, (layout.write v).Steady
  | _, _, .scalar type, v => type.steady_write v
  | _, _, .extension _ he, v => hE _ he v
  | _, _, .enum _, _ | _, _, .numberEnum _, _ =>
    steady_ofExcept_bind fun _ _ => steady_writeOrdinal _ _
  | _, _, .bitmask _, _ =>
    steady_ofExcept_bind fun _ _ => steady_ofExcept_bind fun set _ => steady_flags set
  | _, _, .optional _ h, v => by
    rw [Layout.write]
    split
    · exact steady_u8 _
    · exact (steady_u8 1).bind (steady_write hE h v)
  | _, _, .array h, _ =>
    steady_ofExcept_bind fun items _ =>
      (steady_writeCount _ _).bind (steady_writeItems (steady_write hE h) 0 items)
  | _, _, .union _ _ _ h, _ =>
    steady_ofExcept_bind fun (index, fields) _ =>
      (steady_u8 index).bind (steady_writeVariant hE h index index.toNat fields)
  | _, _, .record _ h, _ => steady_ofExcept_bind fun fields _ => steady_writeFields hE h fields

theorem steady_writeFields (hE : ∀ e, E e → ∀ v, (e.write v).Steady) :
    ∀ {schemas : List (String × Schema)} {layouts : List (String × Layout)},
    CompilesFields E discriminant schemas layouts → ∀ fields, (writeFields layouts fields).Steady
  | _, _, .nil, _ => steady_pure
  | _, _, .cons h hs, fields =>
    ((steady_write hE h _).within (.field _)).bind (steady_writeFields hE hs fields)

theorem steady_writeVariant (hE : ∀ e, E e → ∀ v, (e.write v).Steady) :
    ∀ {variants : List (String × List (String × Schema))}
    {layouts : List (VariantKey × List (String × Layout))},
    CompilesVariants E discriminant variants layouts →
    ∀ index place fields, (writeVariant index layouts place fields).Steady
  | _, _, .nil, _, _, _ => steady_fail _
  | _, _, .cons _ h _, _, 0, fields => steady_writeFields hE h fields
  | _, _, .cons _ _ hs, index, place + 1, fields => steady_writeVariant hE hs index place fields

end

end

theorem output?_writeCount {count : CountWidth} {n : Nat} (h : n ≤ count.limit) :
    (writeCount count n).output? = some (Bytes.bigEndian count.bytes n) := by
  cases count with
  | one =>
    rw [writeCount, output?_u8, ← Bytes.bigEndian_one_ofNat]
    rfl
  | two =>
    have hunit : (UInt16.ofNat n).toNat = n := UInt16.toNat_ofNat_of_lt' (Nat.lt_succ_of_le h)
    rw [writeCount, u16, output?_bytes, hunit]
    rfl

theorem output?_writeItems (h : ∀ v, (item v).Steady) (index : Nat) (items : List Value) :
    (writeItems item index items).output? =
      (items.mapM fun v => (item v).output?).map List.flatten := by
  induction items generalizing index with
  | nil => exact output?_pure
  | cons v rest ih =>
    rw [writeItems, ((h v).within _).output?_bind (steady_writeItems h _ rest), output?_within, ih,
      List.mapM_cons]
    cases (item v).output? with
    | none => rfl
    | some first =>
      cases rest.mapM fun v => (item v).output? with
      | none => rfl
      | some others => rfl

theorem output?_writeOrdinal (ordinal : Option UInt8) (unknown : Undeclared) :
    (writeOrdinal ordinal unknown).output? = ordinal.map fun byte => [byte] := by
  cases ordinal with
  | none => exact output?_fail _
  | some byte => exact output?_u8 byte

theorem output?_flags (set : List Bool) :
    (flags set).output? = if set.length ≤ maxFlags then some [Bytes.packFlags set] else none := by
  unfold flags
  split
  · exact output?_u8 _
  · exact output?_fail _

theorem output?_write_enum (table : LabelTable String) (v : Value) :
    (Layout.write (.enum table) v).output? =
      v.toString?.bind fun label => (table.ordinals.lookup label).map fun byte => [byte] := by
  simp only [Layout.write, output?_ofExcept_bind, Value.toOption_expect, output?_writeOrdinal]

theorem output?_write_numberEnum (table : LabelTable Int32) (v : Value) :
    (Layout.write (.numberEnum table) v).output? =
      v.integral?.bind fun n => (table.ordinalOfInt? n).map fun byte => [byte] := by
  simp only [Layout.write, output?_ofExcept_bind, Value.toOption_expect, output?_writeOrdinal]

theorem output?_write_bitmask (names : List String) (v : Value) :
    (Layout.write (.bitmask names) v).output? = v.fields?.bind fun fields =>
      (names.mapM (Value.expectFlag fields)).toOption.bind fun set =>
        if set.length ≤ maxFlags then some [Bytes.packFlags set] else none := by
  simp only [Layout.write, output?_ofExcept_bind, Value.toOption_expect, output?_flags]

theorem output?_write_optional {inner : Layout} (h : ∀ v, (inner.write v).Steady) (v : Value) :
    (Layout.write (.optional inner) v).output? =
      if v.isNull then some [0] else (inner.write v).output?.map (1 :: ·) := by
  rw [Layout.write]
  split
  · exact output?_u8 _
  · rw [Write.bool, (steady_u8 _).output?_bind (h v), output?_u8]
    rfl

theorem output?_write_array {element : Layout} (h : ∀ v, (element.write v).Steady)
    (count : CountWidth) (v : Value) :
    (Layout.write (.array count element) v).output? = v.items?.bind fun items =>
      if items.length ≤ count.limit then
        (items.mapM fun v => (element.write v).output?).map fun parts =>
          Bytes.bigEndian count.bytes items.length ++ parts.flatten
      else none := by
  rw [Layout.write, output?_ofExcept_bind, Value.toOption_expectItems, Option.bind_assoc]
  congr 1
  funext items
  split
  · rename_i hcount
    rw [Option.bind_some, (steady_writeCount _ _).output?_bind (steady_writeItems h 0 items),
      output?_writeCount hcount, output?_writeItems h, Option.bind_some, Option.map_map]
    rfl
  · rfl

theorem output?_write_union {variants : List (VariantKey × List (String × Layout))}
    (h : ∀ index place fields, (writeVariant index variants place fields).Steady)
    (discriminant : String) (indices : List (String × UInt8)) (v : Value) :
    (Layout.write (.union discriminant variants indices) v).output? =
      v.fields?.bind fun fields => (fields.lookup discriminant).bind fun tag =>
        tag.toString?.bind fun tag => (indices.lookup tag).bind fun index =>
          (writeVariant index variants index.toNat fields).output?.map (index :: ·) := by
  have hvariant : ∀ index fields, (do
      u8 index
      writeVariant index variants index.toNat fields).output? =
      (writeVariant index variants index.toNat fields).output?.map (index :: ·) := by
    intro index fields
    rw [(steady_u8 index).output?_bind (h index _ fields), output?_u8]
    rfl
  rw [Layout.write, output?_ofExcept_bind, Value.toOption_expectVariant]
  simp only [hvariant, Option.bind_assoc, Option.bind_map]
  rfl

theorem output?_writeFields_cons {layout : Layout} {rest : List (String × Layout)}
    {fields : List (String × Value)} (name : String)
    (h : (layout.write (Value.field fields name)).Steady) (hs : (writeFields rest fields).Steady) :
    (writeFields ((name, layout) :: rest) fields).output? =
      (layout.write (Value.field fields name)).output?.bind fun first =>
        (writeFields rest fields).output?.map (first ++ ·) := by
  rw [writeFields, (h.within _).output?_bind hs, output?_within]

theorem output?_write_record (layouts : List (String × Layout)) (v : Value) :
    (Layout.write (.record layouts) v).output? =
      v.fields?.bind fun fields => (writeFields layouts fields).output? := by
  simp only [Layout.write, output?_ofExcept_bind, Value.toOption_expect]

end Layout

end WireSchema
