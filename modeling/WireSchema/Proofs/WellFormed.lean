import Mathlib
import WireSchema.Codec
import WireSchema.Proofs.Tables

/-! The checks walk the tree once and accept exactly the well-formed schemas. Making a layout can then
fail no more. -/

namespace WireSchema

section Results

variable {ε α β : Type}

theorem bind_eq_ok_iff {x : Except ε α} {f : α → Except ε β} {b : β} :
    (x >>= f) = .ok b ↔ ∃ a, x = .ok a ∧ f a = .ok b := by
  cases x with
  | error e => exact ⟨fun h => (nomatch h), fun ⟨_, h, _⟩ => (nomatch h)⟩
  | ok a => exact ⟨fun h => ⟨a, rfl, h⟩, fun ⟨_, h, hb⟩ => by cases h; exact hb⟩

theorem map_eq_ok_iff {x : Except ε α} {f : α → β} {b : β} :
    f <$> x = .ok b ↔ ∃ a, x = .ok a ∧ f a = b := by
  cases x with
  | error e => exact ⟨fun h => (nomatch h), fun ⟨_, h, _⟩ => (nomatch h)⟩
  | ok a =>
    exact ⟨fun h => ⟨a, rfl, Except.ok.inj h⟩, fun ⟨_, h, hb⟩ => by cases h; exact congrArg _ hb⟩

end Results

namespace Schema

inductive Child : Schema → Schema → Prop
  | optional (inner : Schema) : Child inner (.optional inner)
  | element (count : CountWidth) (element : Schema) : Child element (.array count element)
  | variant {variants : List (String × List (String × Schema))}
      {variant : String × List (String × Schema)} {field : String × Schema} :
      variant ∈ variants → field ∈ variant.2 → Child field.2 (.union variants)
  | field {fields : List (String × Schema)} {field : String × Schema} :
      field ∈ fields → Child field.2 (.record fields)

def Everywhere (P : Schema → Prop) (schema : Schema) : Prop :=
  ∀ node, Relation.ReflTransGen Child node schema → P node

section

variable {P : Schema → Prop}

theorem everywhere_iff {schema : Schema} :
    schema.Everywhere P ↔ P schema ∧ ∀ child, Child child schema → child.Everywhere P := by
  constructor
  · exact fun h => ⟨h schema .refl, fun child hchild node hnode => h node (hnode.tail hchild)⟩
  · rintro ⟨hself, hchildren⟩ node hnode
    rcases (Relation.ReflTransGen.cases_tail_iff _ _ _).mp hnode with rfl | ⟨child, hbelow, hchild⟩
    · exact hself
    · exact hchildren child hchild node hbelow

theorem everywhere_leaf_iff {schema : Schema} (h : ∀ child, ¬Child child schema) :
    schema.Everywhere P ↔ P schema :=
  everywhere_iff.trans (and_iff_left fun child hchild => absurd hchild (h child))

theorem everywhere_optional_iff {inner : Schema} :
    (optional inner).Everywhere P ↔ P (optional inner) ∧ inner.Everywhere P := by
  refine everywhere_iff.trans (and_congr_right fun _ => ⟨fun h => h _ (.optional inner), ?_⟩)
  rintro h _ (_ | _)
  exact h

theorem everywhere_array_iff {count : CountWidth} {element : Schema} :
    (array count element).Everywhere P ↔ P (array count element) ∧ element.Everywhere P := by
  refine everywhere_iff.trans (and_congr_right fun _ => ⟨fun h => h _ (.element count element), ?_⟩)
  rintro h _ (_ | _)
  exact h

theorem everywhere_record_iff {fields : List (String × Schema)} :
    (record fields).Everywhere P ↔ P (record fields) ∧ ∀ f ∈ fields, f.2.Everywhere P := by
  refine everywhere_iff.trans (and_congr_right fun _ => ⟨fun h f hf => h _ (.field hf), ?_⟩)
  rintro h _ (_ | _ | _ | hf)
  exact h _ hf

theorem everywhere_union_iff {variants : List (String × List (String × Schema))} :
    (union variants).Everywhere P ↔
      P (union variants) ∧ ∀ v ∈ variants, ∀ f ∈ v.2, f.2.Everywhere P := by
  refine everywhere_iff.trans (and_congr_right fun _ => ⟨fun h v hv f hf => h _ (.variant hv hf), ?_⟩)
  rintro h _ (_ | _ | ⟨hv, hf⟩ | _)
  exact h _ hv _ hf

end

section

variable (types : Extensions) (discriminant : String)

/-- The rules for a node, whatever stands inside it. -/
def KeepsRules : Schema → Prop
  | .scalar _ | .array _ _ => True
  | .custom name => name ∈ types.names
  | .enum labels => LabelsFit labels
  | .numberEnum labels => LabelsFit labels
  | .bitmask flags => (1 ≤ flags.length ∧ flags.length ≤ 7) ∧ (flags.map Prod.fst).Nodup ∧
    (flags.map fun f => f.2.toInt).Perm ((List.range flags.length).map Int.ofNat)
  | .optional inner => inner.isOptional = false
  | .union variants => (1 ≤ variants.length ∧ variants.length ≤ 256) ∧
    (variants.map Prod.fst).Nodup ∧
    ∀ v ∈ variants, discriminant ∉ v.2.map Prod.fst ∧ (v.2.map Prod.fst).Nodup
  | .record fields => (fields.map Prod.fst).Nodup

/-- Every node at every depth keeps the rules. -/
def WellFormed (schema : Schema) : Prop :=
  ∀ node, Relation.ReflTransGen Child node schema → node.KeepsRules types discriminant

end

section

variable {types : Extensions} {discriminant : String}

theorem wellFormed_iff {schema : Schema} : schema.WellFormed types discriminant ↔
    schema.KeepsRules types discriminant ∧
      ∀ child, Child child schema → child.WellFormed types discriminant :=
  everywhere_iff

theorem wellFormed_leaf_iff {schema : Schema} (h : ∀ child, ¬Child child schema) :
    schema.WellFormed types discriminant ↔ schema.KeepsRules types discriminant :=
  everywhere_leaf_iff h

theorem wellFormed_optional_iff {inner : Schema} :
    (optional inner).WellFormed types discriminant ↔
      inner.isOptional = false ∧ inner.WellFormed types discriminant :=
  everywhere_optional_iff

theorem wellFormed_array_iff {count : CountWidth} {element : Schema} :
    (array count element).WellFormed types discriminant ↔ element.WellFormed types discriminant :=
  everywhere_array_iff.trans (and_iff_right trivial)

theorem wellFormed_record_iff {fields : List (String × Schema)} :
    (record fields).WellFormed types discriminant ↔ (fields.map Prod.fst).Nodup ∧
      ∀ f ∈ fields, f.2.WellFormed types discriminant :=
  everywhere_record_iff

theorem wellFormed_union_iff {variants : List (String × List (String × Schema))} :
    (union variants).WellFormed types discriminant ↔
      (1 ≤ variants.length ∧ variants.length ≤ 256) ∧ (variants.map Prod.fst).Nodup ∧
      ∀ v ∈ variants, (discriminant ∉ v.2.map Prod.fst ∧ (v.2.map Prod.fst).Nodup) ∧
        ∀ f ∈ v.2, f.2.WellFormed types discriminant := by
  refine everywhere_union_iff.trans ?_
  simp only [KeepsRules, and_assoc, forall_and, WellFormed, Everywhere]

theorem accept_eq_ok_iff {path : SchemaPath} {violation? : Option Violation} :
    accept path violation? = .ok () ↔ violation? = none := by
  cases violation? <;> simp [accept]

theorem fresh_cons_iff {α β : Type} {seen : List α} {k : α} {b : β} {rest : List (α × β)} :
    (((k, b) :: rest).map Prod.fst).Nodup ∧ (∀ e ∈ (k, b) :: rest, e.1 ∉ seen) ↔
      k ∉ seen ∧ (rest.map Prod.fst).Nodup ∧ ∀ e ∈ rest, e.1 ∉ k :: seen := by
  rw [List.map_cons, List.nodup_cons, List.forall_mem_cons, List.mem_map]
  simp only [List.mem_cons, not_or, forall_and, not_exists, not_and]
  tauto

theorem numbered_cons_iff {names : List String} {numbers : List Int64} {name : String} {n : Int64}
    {rest : List (String × Int64)} (P : Int64 → Prop) :
    (((name, n) :: rest).map Prod.fst).Nodup ∧ (((name, n) :: rest).map Prod.snd).Nodup ∧
        (∀ e ∈ (name, n) :: rest, e.1 ∉ names ∧ e.2 ∉ numbers ∧ P e.2) ↔
      (name ∉ names ∧ P n ∧ n ∉ numbers) ∧ (rest.map Prod.fst).Nodup ∧ (rest.map Prod.snd).Nodup ∧
        ∀ e ∈ rest, e.1 ∉ name :: names ∧ e.2 ∉ n :: numbers ∧ P e.2 := by
  rw [List.map_cons, List.map_cons, List.nodup_cons, List.nodup_cons, List.forall_mem_cons]
  simp only [List.mem_map, List.mem_cons, not_or, not_exists, not_and, forall_and]
  tauto

theorem labelViolation?_eq_none_iff {kind : LabelKind} {labels : List String}
    {ordinals : List Int64} {rest : List (String × Int64)} :
    labelViolation? kind labels ordinals rest = none ↔
      (rest.map Prod.fst).Nodup ∧ (rest.map Prod.snd).Nodup ∧
        ∀ l ∈ rest, l.1 ∉ labels ∧ l.2 ∉ ordinals ∧ 0 ≤ l.2.toInt ∧ l.2.toInt ≤ 255 := by
  induction rest generalizing labels ordinals with
  | nil => simp [labelViolation?]
  | cons l rest ih =>
    obtain ⟨label, ordinal⟩ := l
    have hrange : ordinal.toInt < 0 ∨ 255 < ordinal.toInt ↔
        ¬(0 ≤ ordinal.toInt ∧ ordinal.toInt ≤ 255) := by omega
    rw [labelViolation?, numbered_cons_iff fun n => 0 ≤ n.toInt ∧ n.toInt ≤ 255, ← ih]
    simp only [List.contains_iff_mem, hrange]
    split_ifs <;> simp [*]

theorem enumViolation?_eq_none_iff {kind : LabelKind} {labels : List (String × Int64)} :
    enumViolation? kind labels = none ↔ LabelsFit labels := by
  rw [enumViolation?]
  by_cases hnil : labels = []
  · subst hnil
    simpa using fun h : LabelsFit ([] : List (String × Int64)) => h.nonempty rfl
  · simp only [List.isEmpty_iff, hnil, if_false, labelViolation?_eq_none_iff]
    constructor
    · rintro ⟨hlabels, hordinals, hrange⟩
      exact ⟨hnil, hlabels, hordinals, fun l hl => (hrange l hl).2.2⟩
    · rintro ⟨-, hlabels, hordinals, hrange⟩
      exact ⟨hlabels, hordinals, fun l hl => ⟨List.not_mem_nil, List.not_mem_nil, hrange l hl⟩⟩

theorem flagViolation?_eq_none_iff {count : Nat} {names : List String} {positions : List Int64}
    {rest : List (String × Int64)} :
    flagViolation? count names positions rest = none ↔
      (rest.map Prod.fst).Nodup ∧ (rest.map Prod.snd).Nodup ∧
        ∀ f ∈ rest, f.1 ∉ names ∧ f.2 ∉ positions ∧ 0 ≤ f.2.toInt ∧ f.2.toInt < count := by
  induction rest generalizing names positions with
  | nil => simp [flagViolation?]
  | cons f rest ih =>
    obtain ⟨name, position⟩ := f
    have hrange : position.toInt < 0 ∨ count ≤ position.toInt ↔
        ¬(0 ≤ position.toInt ∧ position.toInt < count) := by omega
    rw [flagViolation?, numbered_cons_iff fun n => 0 ≤ n.toInt ∧ n.toInt < count, ← ih]
    simp only [List.contains_iff_mem, hrange]
    split_ifs <;> simp [*]

theorem bitmaskViolation?_eq_none_iff {flags : List (String × Int64)} :
    bitmaskViolation? flags = none ↔ FlagsFit flags := by
  rw [bitmaskViolation?]
  by_cases hnil : flags = []
  · subst hnil
    simpa using fun h : FlagsFit [] => h.nonempty rfl
  by_cases hmany : maxFlags < flags.length
  · simp only [List.isEmpty_iff, hnil, hmany, if_true, if_false, reduceCtorEq, false_iff]
    exact fun h => absurd h.few (Nat.not_le.mpr hmany)
  · simp only [List.isEmpty_iff, hnil, hmany, if_false, flagViolation?_eq_none_iff]
    constructor
    · rintro ⟨hnames, hpositions, hrange⟩
      exact ⟨hnil, Nat.not_lt.mp hmany, hnames, hpositions, fun f hf => (hrange f hf).2.2⟩
    · rintro ⟨-, -, hnames, hpositions, hrange⟩
      exact ⟨hnames, hpositions, fun f hf => ⟨List.not_mem_nil, List.not_mem_nil, hrange f hf⟩⟩

theorem labelsFit_texts_iff {labels : List (Int32 × Int64)} :
    LabelsFit (labels.map fun l => (toString l.1.toInt, l.2)) ↔ LabelsFit labels := by
  have htexts : (labels.map fun l => (toString l.1.toInt, l.2)).map Prod.fst =
      (labels.map Prod.fst).map fun n => toString n.toInt := by rw [List.map_map, List.map_map]; rfl
  have hordinals : (labels.map fun l => (toString l.1.toInt, l.2)).map Prod.snd =
      labels.map Prod.snd := by rw [List.map_map]; rfl
  have hinj : Function.Injective fun n : Int32 => toString n.toInt := fun a b hab =>
    Int32.toInt_inj.mp (Int.repr_inj.mp hab)
  constructor
  · intro h
    refine ⟨fun hnil => h.nonempty (by rw [hnil]; rfl), ?_, hordinals ▸ h.ordinals_nodup, ?_⟩
    · exact (htexts ▸ h.labels_nodup).of_map _
    · exact fun l hl => h.range _ (List.mem_map_of_mem hl)
  · intro h
    refine ⟨fun hnil => h.nonempty (List.map_eq_nil_iff.mp hnil), ?_, hordinals ▸ h.ordinals_nodup, ?_⟩
    · exact htexts ▸ h.labels_nodup.map hinj
    · intro l hl
      obtain ⟨l', hl', rfl⟩ := List.mem_map.mp hl
      exact h.range l' hl'

theorem flagsFit_iff {flags : List (String × Int64)} :
    FlagsFit flags ↔ (1 ≤ flags.length ∧ flags.length ≤ 7) ∧ (flags.map Prod.fst).Nodup ∧
      (flags.map fun f => f.2.toInt).Perm ((List.range flags.length).map Int.ofNat) := by
  constructor
  · intro h
    refine ⟨⟨List.length_pos_iff.mpr h.nonempty, h.few⟩, h.names_nodup, ?_⟩
    have hpositions : (flags.map fun f => f.2.toInt) =
        (flags.map fun f => f.2.toInt.toNat).map Int.ofNat := by
      rw [List.map_map]
      exact List.map_congr_left fun f hf => (Int.toNat_of_nonneg (h.range f hf).1).symm
    rw [hpositions]
    exact (Layout.positions_perm h).map _
  · rintro ⟨⟨hpos, hfew⟩, hnames, hperm⟩
    refine ⟨List.length_pos_iff.mp hpos, hfew, hnames, ?_, ?_⟩
    · have hnodup : (flags.map fun f => f.2.toInt).Nodup :=
        hperm.nodup_iff.mpr (List.nodup_range.map fun _ _ => Int.ofNat.inj)
      have hsplit : (flags.map fun f => f.2.toInt) = (flags.map Prod.snd).map Int64.toInt := by
        rw [List.map_map]; rfl
      exact (hsplit ▸ hnodup).of_map _
    · intro f hf
      obtain ⟨n, hn, hposition⟩ := List.mem_map.mp (hperm.mem_iff.mp (List.mem_map_of_mem hf))
      rw [List.mem_range] at hn
      rw [← hposition, Int.ofNat_eq_natCast]
      omega

theorem contains_eq_true_iff {name : String} : types.contains name = true ↔ name ∈ types.names :=
  Assoc.isSome_lookup_iff

mutual

theorem checkAt_eq_ok_iff : ∀ {schema : Schema} {path : SchemaPath},
    checkAt types discriminant path schema = .ok () ↔ schema.WellFormed types discriminant
  | .scalar type, path => iff_of_true rfl ((wellFormed_leaf_iff (by rintro _ ⟨⟩)).mpr trivial)
  | .custom name, path => by
    refine Iff.trans ?_ (wellFormed_leaf_iff (by rintro _ ⟨⟩)).symm
    rw [KeepsRules, ← contains_eq_true_iff, checkAt]
    split
    · rename_i hname
      exact iff_of_true rfl hname
    · rename_i hname
      exact iff_of_false (fun herr => nomatch herr) hname
  | .enum labels, path => by
    refine Iff.trans ?_ (wellFormed_leaf_iff (by rintro _ ⟨⟩)).symm
    rw [KeepsRules, checkAt, accept_eq_ok_iff, enumViolation?_eq_none_iff]
  | .numberEnum labels, path => by
    refine Iff.trans ?_ (wellFormed_leaf_iff (by rintro _ ⟨⟩)).symm
    rw [KeepsRules, checkAt, accept_eq_ok_iff, enumViolation?_eq_none_iff, labelsFit_texts_iff]
  | .bitmask flags, path => by
    refine Iff.trans ?_ (wellFormed_leaf_iff (by rintro _ ⟨⟩)).symm
    rw [KeepsRules, checkAt, accept_eq_ok_iff, bitmaskViolation?_eq_none_iff, flagsFit_iff]
  | .optional inner, path => by
    rw [wellFormed_optional_iff, checkAt]
    cases inner.isOptional with
    | true => exact iff_of_false (fun herr => nomatch herr) (fun h => nomatch h.1)
    | false => exact checkAt_eq_ok_iff.trans (and_iff_right rfl).symm
  | .array count element, path => by
    rw [wellFormed_array_iff, checkAt, checkAt_eq_ok_iff]
  | .union variants, path => by
    rw [wellFormed_union_iff, checkAt]
    by_cases hnil : variants = []
    · subst hnil
      exact iff_of_false (fun herr => nomatch herr) (fun h => nomatch h.1.1)
    by_cases hmany : maxVariants < variants.length
    · rw [if_neg (by simpa using hnil), if_pos hmany]
      exact iff_of_false (fun herr => nomatch herr) (fun h => Nat.not_le.mpr hmany h.1.2)
    · have hcount : 1 ≤ variants.length ∧ variants.length ≤ 256 :=
        ⟨List.length_pos_iff.mpr hnil, Nat.not_lt.mp hmany⟩
      rw [if_neg (by simpa using hnil), if_neg hmany, checkVariants_eq_ok_iff, and_iff_right hcount]
      simp
  | .record fields, path => by
    rw [wellFormed_record_iff, checkAt, checkFields_eq_ok_iff]
    simp

theorem checkFields_eq_ok_iff : ∀ {fields : List (String × Schema)} {path : SchemaPath}
    {names : List String}, checkFields types discriminant path names fields = .ok () ↔
      ((fields.map Prod.fst).Nodup ∧ ∀ f ∈ fields, f.1 ∉ names) ∧
        ∀ f ∈ fields, f.2.WellFormed types discriminant
  | [], path, names => by simp [checkFields]
  | (name, schema) :: rest, path, names => by
    rw [checkFields, fresh_cons_iff, List.forall_mem_cons]
    by_cases hname : name ∈ names
    · simp [hname]
    · rw [if_neg (by simpa using hname), bind_eq_ok_iff]
      simp only [checkAt_eq_ok_iff, checkFields_eq_ok_iff, exists_and_left, exists_const]
      tauto

theorem checkVariants_eq_ok_iff : ∀ {variants : List (String × List (String × Schema))}
    {path : SchemaPath} {tags : List String},
    checkVariants types discriminant path tags variants = .ok () ↔
      ((variants.map Prod.fst).Nodup ∧ ∀ v ∈ variants, v.1 ∉ tags) ∧
        ∀ v ∈ variants, (discriminant ∉ v.2.map Prod.fst ∧ (v.2.map Prod.fst).Nodup) ∧
          ∀ f ∈ v.2, f.2.WellFormed types discriminant
  | [], path, tags => by simp [checkVariants]
  | (tag, fields) :: rest, path, tags => by
    have hdisc : fields.any (fun f => f.1 == discriminant) = true ↔
        discriminant ∈ fields.map Prod.fst := by
      simp only [List.any_eq_true, beq_iff_eq, List.mem_map]
    rw [checkVariants, fresh_cons_iff, List.forall_mem_cons]
    by_cases htag : tag ∈ tags
    · simp [htag]
    rw [if_neg (by simpa using htag)]
    simp only [hdisc]
    by_cases hmem : discriminant ∈ fields.map Prod.fst
    · simp [hmem]
    · rw [if_neg hmem, bind_eq_ok_iff]
      simp only [checkFields_eq_ok_iff, checkVariants_eq_ok_iff, exists_and_left, exists_const]
      simp only [List.not_mem_nil, not_false_eq_true, implies_true, and_true]
      tauto

end

mutual

/-- A well-formed schema uses no name that has no meaning. -/
theorem exists_layout_of_wellFormed : ∀ {schema : Schema}, schema.WellFormed types discriminant →
    ∃ layout, Layout.ofSchema types discriminant schema = .ok layout
  | .scalar type, _ => by
    rw [Layout.ofSchema]
    split
    · exact ⟨_, rfl⟩
    · exact ⟨_, rfl⟩
  | .custom name, h => by
    obtain ⟨e, he⟩ := Option.isSome_iff_exists.mp (contains_eq_true_iff.mpr (wellFormed_iff.mp h).1)
    have hget : types.get? name = some e := he
    rw [Layout.ofSchema, hget]
    exact ⟨_, rfl⟩
  | .enum _, _ | .numberEnum _, _ | .bitmask _, _ => ⟨_, rfl⟩
  | .optional inner, h => by
    obtain ⟨layout, hlayout⟩ := exists_layout_of_wellFormed (wellFormed_optional_iff.mp h).2
    exact ⟨.optional layout, map_eq_ok_iff.mpr ⟨layout, hlayout, rfl⟩⟩
  | .array count element, h => by
    obtain ⟨layout, hlayout⟩ := exists_layout_of_wellFormed (wellFormed_array_iff.mp h)
    exact ⟨.array count layout, map_eq_ok_iff.mpr ⟨layout, hlayout, rfl⟩⟩
  | .union variants, h => by
    obtain ⟨layouts, hlayouts⟩ := exists_variants_of_wellFormed 0 fun v hv =>
      ((wellFormed_union_iff.mp h).2.2 v hv).2
    exact ⟨_, bind_eq_ok_iff.mpr ⟨layouts, hlayouts, rfl⟩⟩
  | .record fields, h => by
    obtain ⟨layouts, hlayouts⟩ := exists_fields_of_wellFormed (wellFormed_record_iff.mp h).2
    exact ⟨.record layouts, map_eq_ok_iff.mpr ⟨layouts, hlayouts, rfl⟩⟩

theorem exists_fields_of_wellFormed : ∀ {fields : List (String × Schema)},
    (∀ f ∈ fields, f.2.WellFormed types discriminant) →
    ∃ layouts, Layout.ofFields types discriminant fields = .ok layouts
  | [], _ => ⟨[], rfl⟩
  | (name, schema) :: rest, h => by
    rw [List.forall_mem_cons] at h
    obtain ⟨layout, hlayout⟩ := exists_layout_of_wellFormed h.1
    obtain ⟨layouts, hlayouts⟩ := exists_fields_of_wellFormed h.2
    refine ⟨(name, layout) :: layouts, bind_eq_ok_iff.mpr ⟨layout, hlayout, ?_⟩⟩
    exact bind_eq_ok_iff.mpr ⟨layouts, hlayouts, rfl⟩

theorem exists_variants_of_wellFormed : ∀ (place : Nat)
    {variants : List (String × List (String × Schema))},
    (∀ v ∈ variants, ∀ f ∈ v.2, f.2.WellFormed types discriminant) →
    ∃ layouts, Layout.ofVariants types discriminant place variants = .ok layouts
  | _, [], _ => ⟨[], rfl⟩
  | place, (tag, fields) :: rest, h => by
    rw [List.forall_mem_cons] at h
    obtain ⟨layout, hlayout⟩ := exists_fields_of_wellFormed h.1
    obtain ⟨layouts, hlayouts⟩ := exists_variants_of_wellFormed (place + 1) h.2
    refine ⟨(⟨tag, UInt8.ofNat place⟩, layout) :: layouts, bind_eq_ok_iff.mpr ⟨layout, hlayout, ?_⟩⟩
    exact bind_eq_ok_iff.mpr ⟨layouts, hlayouts, rfl⟩

end

end

end Schema

namespace Codec

variable {types : Extensions} {discriminant : String} {schema : Schema} {c : Codec}

theorem ofSchema_eq_ok_iff : ofSchema types discriminant schema = .ok c ↔
    schema.WellFormed types discriminant ∧
      ∃ layout, Layout.ofSchema types discriminant schema = .ok layout ∧
        c = ofLayout types schema layout := by
  constructor
  · intro h
    obtain ⟨_, hcheck, h⟩ := bind_eq_ok_iff.mp h
    obtain ⟨layout, hlayout, h⟩ := bind_eq_ok_iff.mp h
    cases h
    exact ⟨Schema.checkAt_eq_ok_iff.mp hcheck, layout, hlayout, rfl⟩
  · rintro ⟨hwell, layout, hlayout, rfl⟩
    refine bind_eq_ok_iff.mpr ⟨(), Schema.checkAt_eq_ok_iff.mpr hwell, ?_⟩
    exact bind_eq_ok_iff.mpr ⟨layout, hlayout, rfl⟩

/-- A codec is made of exactly the well-formed schemas. A schema is refused with what the checks report;
one that passes them has a layout. -/
theorem exists_ofSchema_iff_wellFormed (types : Extensions) (discriminant : String) (schema : Schema) :
    ((∃ c, ofSchema types discriminant schema = .ok c) ↔ schema.WellFormed types discriminant) ∧
      (∀ e, ofSchema types discriminant schema = .error e ↔ schema.check types discriminant = .error e) ∧
      (schema.check types discriminant = .ok () →
        ∃ layout, Layout.ofSchema types discriminant schema = .ok layout) := by
  have hlayout := fun h : schema.check types discriminant = .ok () =>
    Schema.exists_layout_of_wellFormed (Schema.checkAt_eq_ok_iff.mp h)
  refine ⟨⟨fun ⟨c, hc⟩ => (ofSchema_eq_ok_iff.mp hc).1, fun h => ?_⟩, fun e => ?_, hlayout⟩
  · obtain ⟨layout, hl⟩ := Schema.exists_layout_of_wellFormed h
    exact ⟨ofLayout types schema layout, ofSchema_eq_ok_iff.mpr ⟨h, layout, hl, rfl⟩⟩
  · rw [ofSchema]
    cases hcheck : schema.check types discriminant with
    | error e' => exact ⟨fun h => congrArg _ (Except.error.inj h), fun h => congrArg _ (Except.error.inj h)⟩
    | ok _ =>
      obtain ⟨layout, hl⟩ := hlayout hcheck
      rw [hl]
      exact iff_of_false (fun herr => nomatch herr) (fun herr => nomatch herr)

end Codec

end WireSchema
