import WireSchema.Proofs.Integers
import WireSchema.Proofs.Messages

/-! A mismatch comes from one node of the schema. Writing names every step on the way to it; sizing
passes over elements without naming them, so of a mismatch that it finds first only the fields are told.
-/

namespace WireSchema

def Step.isField : Step → Bool
  | .field _ => true
  | .element _ => false

/-- What is wrong with a value that should be of some shape: the shape itself, or what it holds. -/
def Value.objection? {α : Type} (v : Value) (expected : Shape) (part : Value → Option α)
    (inside : α → Option Mismatch) : Option Mismatch :=
  match part v with
  | some a => inside a
  | none => some (.shape expected v.kind)

def Value.flagObjection? (fields : List (String × Value)) (name : String) : Option Mismatch :=
  match field fields name with
  | .null | .bool _ => none
  | other => some (.shape .flag other.kind)

def Scalar.objection? (type : Scalar) (v : Value) : Option Mismatch :=
  match type.integerRange? with
  | some (low, high) => v.objection? (.scalar type) Value.integer? fun n =>
    if low ≤ n ∧ n ≤ high then none else some (.outOfRange (Value.clampInt64 n) type)
  | none =>
    match type with
    | boolean => v.objection? (.scalar type) Value.toBool? fun _ => none
    | string => v.objection? (.scalar type) Value.toString? fun s =>
      let units := (Utf16.encode s.toList).length
      if units ≤ Write.maxUnits then none else some (.longText units)
    | _ => v.objection? (.scalar type) Value.toBinary64? fun _ => none

namespace Schema

/-- What is wrong with a value at a node, the parts inside it set aside. The flags of a bitmask belong to
its node, and the first of them in the order of the bits is named. -/
def objection? (discriminant : String) : Schema → Value → Option (List Step × Mismatch)
  | .scalar type, v => (type.objection? v).map fun why => ([], why)
  | .custom _, _ | .optional _, _ => none
  | .enum _, v => (v.objection? .enumLabel Value.toString? fun _ => none).map fun why => ([], why)
  | .numberEnum _, v =>
    (v.objection? .numberEnumLabel Value.integer? fun _ => none).map fun why => ([], why)
  | .bitmask flags, v =>
    match v.fields? with
    | some fields => (flagNames flags).findSome? fun name =>
      (Value.flagObjection? fields name).map fun why => ([.field name], why)
    | none => some ([], .shape .bitmask v.kind)
  | .array count _, v => (v.objection? (.array count) Value.items? fun items =>
      if items.length ≤ count.limit then none
      else some (.tooManyElements items.length count)).map fun why => ([], why)
  | .union _, v => (v.objection? .union Value.fields? fun fields =>
      match fields.lookup discriminant with
      | some (.string _) => none
      | some other => some (.badDiscriminant discriminant other.kind)
      | none => some (.missingDiscriminant discriminant)).map fun why => ([], why)
  | .record _, v => (v.objection? .record Value.fields? fun _ => none).map fun why => ([], why)

def undeclared? (discriminant : String) : Schema → Value → Option Undeclared
  | .enum labels, v => v.toString?.bind fun label =>
    if label ∈ labels.map Prod.fst then none else some (.enumLabel label)
  | .numberEnum labels, v => v.integer?.bind fun n =>
    if ∃ l ∈ labels, l.1.toInt = n then none else some (.numberEnumLabel (Value.clampInt64 n))
  | .union variants, v => (v.get? discriminant).bind fun found => found.toString?.bind fun tag =>
    if tag ∈ variants.map Prod.fst then none else some (.tag tag)
  | _, _ => none

/-- The node at the end of a path into a value, under the optionals around it, and what stands there. -/
def nodeAt? (discriminant : String) : List Step → Schema → Value → Option (Schema × Value)
  | [], schema, v => (present? schema v).map fun node => (node, v)
  | step :: path, schema, v => do
    let (inner, part) ← child? discriminant (← present? schema v) v step
    nodeAt? discriminant path inner part

/-- A failure that comes from one node of the schema: a mismatch to which the node objects, or a name that
it does not declare. Of the steps on the way to a mismatch those are told that `shown` picks. -/
def Located (shown : Step → Bool) (discriminant : String) (schema : Schema) (v : Value) :
    Failure → Prop
  | .mismatch path why => ∃ place node part inside,
    schema.nodeAt? discriminant place v = some (node, part) ∧
      node.objection? discriminant part = some (inside, why) ∧ path = (place ++ inside).filter shown
  | .undeclared what => ∃ place node part,
    schema.nodeAt? discriminant place v = some (node, part) ∧
      node.undeclared? discriminant part = some what
  | _ => False

def FieldsLocated (shown : Step → Bool) (discriminant : String) (schemas : List (String × Schema))
    (fields : List (String × Value)) (failure : Failure) : Prop :=
  ∃ name schema inner, schemas.lookup name = some schema ∧
    Located shown discriminant schema (Value.field fields name) inner ∧
    failure = inner.within (.field name)

section

variable {discriminant : String} {shown : Step → Bool} {schema : Schema} {v : Value}

theorem nodeAt?_optional (inner : Schema) (h : v.isNull = false) (path : List Step) :
    nodeAt? discriminant path (.optional inner) v = nodeAt? discriminant path inner v := by
  have hpresent : present? (.optional inner) v = present? inner v := by
    rw [present?, h, if_neg Bool.false_ne_true]
  cases path with
  | nil => rw [nodeAt?, nodeAt?, hpresent]
  | cons step path => rw [nodeAt?, nodeAt?, hpresent]

theorem Located.optional {inner : Schema} {failure : Failure} (hv : v.isNull = false)
    (h : Located shown discriminant inner v failure) :
    Located shown discriminant (.optional inner) v failure := by
  cases failure with
  | mismatch path why =>
    obtain ⟨place, node, part, inside, hnode, h⟩ := h
    exact ⟨place, node, part, inside, (nodeAt?_optional inner hv place).trans hnode, h⟩
  | undeclared what =>
    obtain ⟨place, node, part, hnode, h⟩ := h
    exact ⟨place, node, part, (nodeAt?_optional inner hv place).trans hnode, h⟩
  | _ => exact h.elim

theorem located_here (hpresent : present? schema v = some schema) {inside : List Step} {why : Mismatch}
    (h : schema.objection? discriminant v = some (inside, why)) :
    Located shown discriminant schema v (.mismatch (inside.filter shown) why) :=
  ⟨[], schema, v, inside, by rw [nodeAt?, hpresent]; rfl, h, rfl⟩

theorem located_undeclared (hpresent : present? schema v = some schema) {what : Undeclared}
    (h : schema.undeclared? discriminant v = some what) :
    Located shown discriminant schema v (.undeclared what) :=
  ⟨[], schema, v, by rw [nodeAt?, hpresent]; rfl, h⟩

theorem nodeAt?_cons (hpresent : present? schema v = some schema) {step : Step} {inner : Schema}
    {part : Value} (hchild : child? discriminant schema v step = some (inner, part))
    (path : List Step) :
    nodeAt? discriminant (step :: path) schema v = nodeAt? discriminant path inner part := by
  rw [nodeAt?, hpresent]
  simp only [Option.bind_eq_bind, Option.bind_some, hchild]

theorem Located.within (hpresent : present? schema v = some schema) {step : Step} {inner : Schema}
    {part : Value} (hchild : child? discriminant schema v step = some (inner, part))
    (hshown : shown step = true) {failure : Failure}
    (h : Located shown discriminant inner part failure) :
    Located shown discriminant schema v (failure.within step) := by
  cases failure with
  | mismatch path why =>
    obtain ⟨place, node, found, inside, hnode, hobjection, rfl⟩ := h
    refine ⟨step :: place, node, found, inside, (nodeAt?_cons hpresent hchild place).trans hnode,
      hobjection, ?_⟩
    rw [List.cons_append, List.filter_cons_of_pos hshown]
  | undeclared what =>
    obtain ⟨place, node, found, hnode, hnone⟩ := h
    exact ⟨step :: place, node, found, (nodeAt?_cons hpresent hchild place).trans hnode, hnone⟩
  | _ => exact h.elim

theorem Located.passed (hpresent : present? schema v = some schema) {step : Step} {inner : Schema}
    {part : Value} (hchild : child? discriminant schema v step = some (inner, part))
    (hshown : shown step = false) {failure : Failure}
    (h : Located shown discriminant inner part failure) :
    Located shown discriminant schema v failure := by
  cases failure with
  | mismatch path why =>
    obtain ⟨place, node, found, inside, hnode, hobjection, rfl⟩ := h
    refine ⟨step :: place, node, found, inside, (nodeAt?_cons hpresent hchild place).trans hnode,
      hobjection, ?_⟩
    rw [List.cons_append, List.filter_cons_of_neg (Bool.eq_false_iff.mp hshown)]
  | undeclared what =>
    obtain ⟨place, node, found, hnode, hnone⟩ := h
    exact ⟨step :: place, node, found, (nodeAt?_cons hpresent hchild place).trans hnode, hnone⟩
  | _ => exact h.elim

theorem FieldsLocated.located (hpresent : present? schema v = some schema)
    {fields : List (String × Value)} (hv : v = .object fields) {schemas : List (String × Schema)}
    (hdeclared : declared? discriminant schema fields = some schemas)
    (hfield : ∀ name, shown (.field name) = true) {failure : Failure}
    (h : FieldsLocated shown discriminant schemas fields failure) :
    Located shown discriminant schema v failure := by
  subst hv
  obtain ⟨name, inner, failure, hname, h, rfl⟩ := h
  refine h.within hpresent ?_ (hfield name)
  rw [child?_field, hdeclared, Option.bind_some, hname, Option.map_some]

theorem fieldsLocated_head {name : String} {rest : List (String × Schema)}
    {fields : List (String × Value)} {failure : Failure}
    (h : Located shown discriminant schema (Value.field fields name) failure) :
    FieldsLocated shown discriminant ((name, schema) :: rest) fields
      (failure.within (.field name)) :=
  ⟨name, schema, failure, List.lookup_cons_self, h, rfl⟩

theorem FieldsLocated.tail {name : String} {rest : List (String × Schema)}
    {fields : List (String × Value)} (hname : name ∉ rest.map Prod.fst) {failure : Failure}
    (h : FieldsLocated shown discriminant rest fields failure) :
    FieldsLocated shown discriminant ((name, schema) :: rest) fields failure := by
  obtain ⟨other, inner, failure, hother, h⟩ := h
  have hne : other ≠ name := by
    rintro rfl
    exact hname (Assoc.isSome_lookup_iff.mp (by rw [hother]; rfl))
  refine ⟨other, inner, failure, ?_, h⟩
  rw [List.lookup_cons, beq_false_of_ne hne]
  exact hother

end

end Schema

namespace Value

variable {P : Failure → Prop} {v : Value}

theorem failsOnly_expect {α : Type} {expected : Shape} {part : Value → Option α}
    (h : part v = none → P (.mismatch [] (.shape expected v.kind))) :
    FailsOnly P (v.expect expected part) := by
  unfold expect
  split
  · exact failsOnly_ok _
  · rename_i hnone
    exact failsOnly_error (h hnone)

theorem objection?_of_eq_none {α : Type} {expected : Shape} {part : Value → Option α}
    (h : part v = none) (inside : α → Option Mismatch) :
    v.objection? expected part inside = some (.shape expected v.kind) := by
  rw [objection?, h]

theorem objection?_of_eq_some {α : Type} {expected : Shape} {part : Value → Option α} {a : α}
    (h : part v = some a) (inside : α → Option Mismatch) :
    v.objection? expected part inside = inside a := by
  rw [objection?, h]

theorem expect_eq_ok_iff {α : Type} {expected : Shape} {part : Value → Option α} {a : α} :
    v.expect expected part = .ok a ↔ part v = some a := by
  rw [← toOption_eq_some_iff, toOption_expect]

theorem eq_array_of_expectItems {count : CountWidth} {items : List Value}
    (h : v.expectItems count = .ok items) : v = .array items := by
  obtain ⟨items', hitems, h⟩ := bind_eq_ok_iff.mp h
  split at h
  · cases h
    exact items?_eq_some_iff.mp (expect_eq_ok_iff.mp hitems)
  · cases h

theorem failsOnly_mapM_expectFlag (fields : List (String × Value)) (names : List String) :
    FailsOnly (fun failure => ∃ inside why, failure = .mismatch inside why ∧
        (names.findSome? fun name => (flagObjection? fields name).map fun why =>
          ([Step.field name], why)) = some (inside, why)) (names.mapM (expectFlag fields)) := by
  induction names with
  | nil => exact failsOnly_ok []
  | cons name rest ih =>
    rw [List.mapM_cons, List.findSome?_cons, expectFlag, flagObjection?]
    cases field fields name with
    | null | bool set => exact ih.bind fun _ _ => failsOnly_ok _
    | _ => exact failsOnly_error ⟨_, _, rfl, rfl⟩

end Value

def Scalar.Objects (type : Scalar) (v : Value) (failure : Failure) : Prop :=
  ∃ why, type.objection? v = some why ∧ failure = .mismatch [] why

theorem Scalar.failsOnly_write (type : Scalar) (v : Value) :
    (type.write v).FailsOnly (type.Objects v) := by
  have hinteger : ∀ {low high : Int}, type.integerRange? = some (low, high) →
      (type.write v).FailsOnly (type.Objects v) := by
    intro low high hrange
    obtain ⟨width, -, hwrite⟩ := write_eq_of_integerRange? hrange
    unfold Objects objection?
    rw [hwrite, hrange]
    cases hn : v.integer? with
    | none => exact Write.failsOnly_fail ⟨_, Value.objection?_of_eq_none hn _, rfl⟩
    | some n =>
      simp only [Value.objection?_of_eq_some hn]
      split
      · exact Write.failsOnly_bytes _
      · exact Write.failsOnly_fail ⟨_, rfl, rfl⟩
  have hpart : ∀ {α : Type} {part : Value → Option α} {k : α → Write Unit},
      (part v = none → type.objection? v = some (.shape (.scalar type) v.kind)) →
      (∀ a, part v = some a → (k a).FailsOnly (type.Objects v)) →
      (Write.ofExcept (v.expect (.scalar type) part) >>= k).FailsOnly (type.Objects v) := by
    intro α part k hnone hsome
    refine Write.failsOnly_ofExcept_bind (Value.failsOnly_expect fun h => ⟨_, hnone h, rfl⟩) ?_
    exact fun a ha => hsome a (Value.expect_eq_ok_iff.mp ha)
  cases type with
  | uint8 | uint16 | uint32 | int8 | int16 | int32 => exact hinteger rfl
  | float32 | float64 | boolean =>
    exact hpart (fun h => Value.objection?_of_eq_none h _) fun _ _ => Write.failsOnly_bytes _
  | string =>
    refine hpart (fun h => Value.objection?_of_eq_none h _) fun s hs => ?_
    simp only [Write.text]
    split
    · exact Write.failsOnly_bytes _
    · rename_i hlong
      refine Write.failsOnly_fail ⟨_, ?_, rfl⟩
      exact (Value.objection?_of_eq_some hs _).trans (if_neg hlong)

namespace Layout

open Schema

section

variable {shown : Step → Bool} {discriminant : String} {v : Value}

theorem located_shape {schema : Schema} (hpresent : present? schema v = some schema) {why : Mismatch}
    (h : schema.objection? discriminant v = some ([], why)) :
    Located shown discriminant schema v (.mismatch [] why) := located_here hpresent h

theorem failsOnly_expectItems (count : CountWidth) (element : Schema) :
    FailsOnly (Located shown discriminant (.array count element) v) (v.expectItems count) := by
  unfold Value.expectItems
  refine FailsOnly.bind (Value.failsOnly_expect fun hnone => located_shape rfl ?_) fun items hitems => ?_
  · rw [objection?, Value.objection?_of_eq_none hnone, Option.map_some]
  · rw [Value.expect_eq_ok_iff] at hitems
    split
    · exact failsOnly_ok _
    · rename_i hmany
      refine failsOnly_error (located_shape rfl ?_)
      rw [objection?, Value.objection?_of_eq_some hitems, if_neg hmany, Option.map_some]

theorem not_mem_of_lookup_placeIndices {tags : List String} {tag : String}
    (h : (placeIndices 0 tags).lookup tag = none) : tag ∉ tags := by
  intro hmem
  obtain ⟨i, hi⟩ := List.mem_iff_getElem?.mp hmem
  have hbound : ((placeIndices 0 tags).lookup tag).isSome = true :=
    Assoc.isSome_lookup_iff.mpr (List.mem_map.mpr ⟨_, mem_placeIndices_iff.mpr ⟨i, hi, rfl⟩, rfl⟩)
  rw [h] at hbound
  cases hbound

theorem failsOnly_expectVariant (variants : List (String × List (String × Schema))) :
    FailsOnly (Located shown discriminant (.union variants) v)
      (v.expectVariant discriminant (placeIndices 0 (variants.map Prod.fst))) := by
  unfold Value.expectVariant
  refine FailsOnly.bind (Value.failsOnly_expect fun hnone => located_shape rfl ?_) fun fields hfields => ?_
  · rw [objection?, Value.objection?_of_eq_none hnone, Option.map_some]
  · rw [Value.expect_eq_ok_iff] at hfields
    split
    · rename_i tag hlookup
      split
      · exact failsOnly_ok _
      · rename_i hindex
        refine failsOnly_error (located_undeclared rfl ?_)
        rw [undeclared?, Value.get?, hfields, Option.bind_some, hlookup, Option.bind_some,
          Value.toString?, Option.bind_some, if_neg (not_mem_of_lookup_placeIndices hindex)]
    · rename_i other hother hlookup
      refine failsOnly_error (located_shape rfl ?_)
      rw [objection?, Value.objection?_of_eq_some hfields, hlookup]
      cases other with
      | string tag => exact (hother tag rfl).elim
      | _ => rfl
    · rename_i hlookup
      refine failsOnly_error (located_shape rfl ?_)
      rw [objection?, Value.objection?_of_eq_some hfields, hlookup, Option.map_some]

theorem exists_picked {variants : List (String × List (String × Schema))} (hmany : variants.length ≤ 256)
    (htags : (variants.map Prod.fst).Nodup) {index : UInt8} {fields : List (String × Value)}
    (h : v.expectVariant discriminant (placeIndices 0 (variants.map Prod.fst)) = .ok (index, fields)) :
    ∃ tag schemas, v = .object fields ∧ variants[index.toNat]? = some (tag, schemas) ∧
      declared? discriminant (.union variants) fields = some schemas := by
  rw [← toOption_eq_some_iff, Value.toOption_expectVariant] at h
  obtain ⟨fields, hfields, h⟩ := Option.bind_eq_some_iff.mp h
  obtain ⟨field, hfield, h⟩ := Option.bind_eq_some_iff.mp h
  obtain ⟨tag, htag, h⟩ := Option.bind_eq_some_iff.mp h
  obtain ⟨index, hindex, h⟩ := Option.map_eq_some_iff.mp h
  cases h
  have hplace := (lookup_placeIndices_iff htags (by rwa [List.length_map])).mp hindex
  rw [List.getElem?_map] at hplace
  obtain ⟨⟨tag', schemas⟩, hget, rfl⟩ := Option.map_eq_some_iff.mp hplace
  refine ⟨tag', schemas, Value.fields?_eq_some_iff.mp hfields, hget, ?_⟩
  rw [declared?, hfield]
  simp only [Option.bind_eq_bind, Option.bind_some, htag]
  exact (Assoc.lookup_eq_some_iff_mem htags).mpr (List.mem_of_getElem? hget)

theorem failsOnly_writeItems {P : Value → Failure → Prop} {item : Value → Write Unit}
    (h : ∀ v, (item v).FailsOnly (P v)) (k : Nat) (items : List Value) :
    (writeItems item k items).FailsOnly fun failure => ∃ i part inner, items[i]? = some part ∧
      P part inner ∧ failure = inner.within (.element (k + i)) := by
  induction items generalizing k with
  | nil => exact Write.failsOnly_pure ()
  | cons v rest ih =>
    refine Write.FailsOnly.bind ((h v).within fun failure hfailure => ⟨0, v, failure, rfl, hfailure, rfl⟩) ?_
    refine (ih (k + 1)).imp ?_
    rintro _ ⟨i, part, inner, hpart, hinner, rfl⟩
    exact ⟨i + 1, part, inner, hpart, hinner, by rw [Nat.add_assoc, Nat.add_comm 1 i]⟩

mutual

/-- Every mismatch that writing finds is placed in full. -/
theorem located_write : ∀ {schema : Schema} {layout : Layout},
    Compiles (fun _ => False) discriminant schema layout → ∀ v,
    (layout.write v).FailsOnly (Located (fun _ => true) discriminant schema v)
  | _, _, .scalar type, v => by
    refine (type.failsOnly_write v).imp ?_
    rintro _ ⟨why, hwhy, rfl⟩
    exact located_shape rfl (by rw [objection?, hwhy, Option.map_some])
  | _, _, .extension _ he, _ => he.elim
  | .enum labels, _, .enum hfit, v => by
    refine Write.failsOnly_ofExcept_bind (Value.failsOnly_expect fun hnone => located_shape rfl ?_)
      fun label hlabel => ?_
    · rw [objection?, Value.objection?_of_eq_none hnone, Option.map_some]
    · rw [Value.expect_eq_ok_iff] at hlabel
      refine failsOnly_writeOrdinal _ fun hnone => located_undeclared rfl ?_
      rw [lookup_ordinals_labelTable hfit, Option.map_eq_none_iff] at hnone
      have hundeclared : label ∉ labels.map Prod.fst := by
        intro hmem
        rw [← Assoc.isSome_lookup_iff, hnone] at hmem
        cases hmem
      rw [undeclared?, hlabel, Option.bind_some, if_neg hundeclared]
  | .numberEnum labels, _, .numberEnum _, v => by
    rw [write_numberEnum_eq]
    cases hn : v.integer? with
    | none =>
      refine Write.failsOnly_fail (located_shape rfl ?_)
      rw [objection?, Value.objection?_of_eq_none hn, Option.map_some]
    | some n =>
      refine failsOnly_writeOrdinal _ fun hnone => located_undeclared rfl ?_
      have hundeclared : ¬∃ l ∈ labels, l.1.toInt = n := by
        rw [← isSome_ordinalOfInt?_iff, hnone]
        exact Bool.false_ne_true
      rw [undeclared?, hn, Option.bind_some, if_neg hundeclared]
  | .bitmask flags, _, .bitmask hfit, v => by
    refine Write.failsOnly_ofExcept_bind (Value.failsOnly_expect fun hnone => located_shape rfl ?_)
      fun fields hfields => ?_
    · rw [objection?, hnone]
    · rw [Value.expect_eq_ok_iff] at hfields
      refine Write.failsOnly_ofExcept_bind ((Value.failsOnly_mapM_expectFlag fields _).imp ?_)
        fun set hset => ?_
      · rintro _ ⟨inside, why, rfl, hfind⟩
        have hobjection : Schema.objection? discriminant (.bitmask flags) v = some (inside, why) := by
          rw [objection?, hfields]
          exact hfind
        have hlocated : Located (fun _ => true) discriminant (.bitmask flags) v
            (.mismatch (inside.filter fun _ => true) why) := located_here rfl hobjection
        rwa [List.filter_true] at hlocated
      · have hfew : set.length ≤ maxFlags := by
          rw [length_of_mapM_eq_ok hset, length_flagNames hfit]
          exact hfit.few
        rw [Write.flags, if_pos hfew]
        exact Write.failsOnly_bytes _
  | _, _, .optional _ h, v => by
    rw [write]
    split
    · exact Write.failsOnly_bytes _
    · rename_i hnull
      exact (Write.failsOnly_bytes _).bind
        ((located_write h v).imp fun _ => Located.optional (Bool.eq_false_iff.mpr hnull))
  | .array count element, _, .array h, v => by
    refine Write.failsOnly_ofExcept_bind (failsOnly_expectItems count element) fun items hitems => ?_
    obtain rfl := Value.eq_array_of_expectItems hitems
    refine (failsOnly_writeCount _ _).bind ((failsOnly_writeItems (located_write h) 0 items).imp ?_)
    rintro _ ⟨i, part, inner, hpart, hinner, rfl⟩
    refine hinner.within rfl ?_ rfl
    rw [Nat.zero_add, child?_array, hpart, Option.map_some]
  | .union variants, _, .union _ hmany htags h, v => by
    rw [write]
    refine Write.failsOnly_ofExcept_bind (failsOnly_expectVariant variants) fun (index, fields) hpick => ?_
    obtain ⟨tag, schemas, hv, hget, hdeclared⟩ := exists_picked hmany htags hpick
    exact (Write.failsOnly_bytes _).bind ((located_writeVariant h index hget fields).imp fun _ hfailure =>
      hfailure.located rfl hv hdeclared fun _ => rfl)
  | .record schemas, _, .record hnames h, v => by
    refine Write.failsOnly_ofExcept_bind (Value.failsOnly_expect fun hnone => located_shape rfl ?_)
      fun fields hfields => ?_
    · rw [objection?, Value.objection?_of_eq_none hnone, Option.map_some]
    · have hv := Value.fields?_eq_some_iff.mp (Value.expect_eq_ok_iff.mp hfields)
      exact (located_writeFields h hnames fields).imp fun _ hfailure =>
        hfailure.located rfl hv rfl fun _ => rfl

theorem located_writeFields : ∀ {schemas : List (String × Schema)} {layouts : List (String × Layout)},
    CompilesFields (fun _ => False) discriminant schemas layouts → (schemas.map Prod.fst).Nodup →
    ∀ fields, (writeFields layouts fields).FailsOnly
      (FieldsLocated (fun _ => true) discriminant schemas fields)
  | _, _, .nil, _, _ => Write.failsOnly_pure ()
  | _, _, .cons h hs, hnames, fields => by
    rw [List.map_cons, List.nodup_cons] at hnames
    exact ((located_write h _).within fun _ => fieldsLocated_head).bind
      ((located_writeFields hs hnames.2 fields).imp fun _ => FieldsLocated.tail hnames.1)

theorem located_writeVariant : ∀ {variants : List (String × List (String × Schema))}
    {layouts : List (VariantKey × List (String × Layout))},
    CompilesVariants (fun _ => False) discriminant variants layouts →
    ∀ (index : UInt8) {place : Nat} {tag : String} {schemas : List (String × Schema)},
    variants[place]? = some (tag, schemas) → ∀ fields,
    (writeVariant index layouts place fields).FailsOnly
      (FieldsLocated (fun _ => true) discriminant schemas fields)
  | _, _, .nil, _, _, _, _, hget, _ => nomatch hget
  | _, _, .cons hnames h _, _, 0, _, _, hget, fields => by
    cases hget
    exact located_writeFields h (List.nodup_cons.mp hnames).2 fields
  | _, _, .cons _ _ hs, index, _ + 1, _, _, hget, fields => located_writeVariant hs index hget fields

end

theorem failsOnly_sumSizes {P : Value → Failure → Prop} {size : Value → Except Failure Nat}
    (h : ∀ v, FailsOnly (P v) (size v)) (items : List Value) :
    FailsOnly (fun failure => ∃ (i : Nat) (part : Value), items[i]? = some part ∧ P part failure)
      (sumSizes size items) := by
  induction items with
  | nil => exact failsOnly_ok 0
  | cons v rest ih =>
    refine ((h v).imp fun failure hfailure => ⟨0, v, rfl, hfailure⟩).bind fun _ _ => ?_
    refine FailsOnly.bind (ih.imp ?_) fun _ _ => failsOnly_ok _
    rintro _ ⟨i, part, hpart, hfailure⟩
    exact ⟨i + 1, part, hpart, hfailure⟩

mutual

/-- Every mismatch that sizing finds is placed by the fields on the way. -/
theorem located_size : ∀ {schema : Schema} {layout : Layout},
    Compiles (fun _ => False) discriminant schema layout → ∀ v,
    FailsOnly (Located Step.isField discriminant schema v) (layout.size v)
  | _, _, .scalar type, v => by
    rw [size]
    split
    · exact failsOnly_ok _
    · rename_i hwidth
      refine (Value.failsOnly_expect fun hnone => located_shape rfl ?_).map _
      cases type with
      | string =>
        rw [objection?, Scalar.objection?]
        exact congrArg _ (Value.objection?_of_eq_none hnone _)
      | _ => cases hwidth
  | _, _, .extension _ he, _ => he.elim
  | _, _, .enum _, _ | _, _, .numberEnum _, _ | _, _, .bitmask _, _ => failsOnly_ok 1
  | _, _, .optional _ h, v => by
    rw [size]
    split
    · exact failsOnly_ok 1
    · rename_i hnull
      exact ((located_size h v).imp fun _ => Located.optional (Bool.eq_false_iff.mpr hnull)).map _
  | .array count element, .array _ layout, .array h, v => by
    refine (failsOnly_expectItems count element).bind fun items hitems => ?_
    obtain rfl := Value.eq_array_of_expectItems hitems
    split
    · exact failsOnly_ok _
    · refine ((failsOnly_sumSizes (located_size h) items).imp ?_).map _
      rintro failure ⟨i, part, hpart, hfailure⟩
      have hchild : child? discriminant (.array count element) (.array items) (.element i) =
          some (element, part) := by
        rw [child?_array, hpart, Option.map_some]
      exact hfailure.passed rfl hchild rfl
  | .union variants, _, .union _ hmany htags h, v => by
    rw [size]
    refine (failsOnly_expectVariant variants).bind fun (index, fields) hpick => ?_
    obtain ⟨tag, schemas, hv, hget, hdeclared⟩ := exists_picked hmany htags hpick
    exact ((located_variantSize h index hget fields).imp fun _ hfailure =>
      hfailure.located rfl hv hdeclared fun _ => rfl).map _
  | .record schemas, _, .record hnames h, v => by
    refine (Value.failsOnly_expect fun hnone => located_shape rfl ?_).bind fun fields hfields => ?_
    · rw [objection?, Value.objection?_of_eq_none hnone, Option.map_some]
    · have hv := Value.fields?_eq_some_iff.mp (Value.expect_eq_ok_iff.mp hfields)
      exact (located_fieldsSize h hnames fields).imp fun _ hfailure =>
        hfailure.located rfl hv rfl fun _ => rfl

theorem located_fieldsSize : ∀ {schemas : List (String × Schema)} {layouts : List (String × Layout)},
    CompilesFields (fun _ => False) discriminant schemas layouts → (schemas.map Prod.fst).Nodup →
    ∀ fields, FailsOnly (FieldsLocated Step.isField discriminant schemas fields)
      (fieldsSize layouts fields)
  | _, _, .nil, _, _ => failsOnly_ok 0
  | _, _, .cons h hs, hnames, fields => by
    rw [List.map_cons, List.nodup_cons] at hnames
    exact ((located_size h _).mapError fun _ => fieldsLocated_head).bind fun _ _ =>
      ((located_fieldsSize hs hnames.2 fields).imp fun _ => FieldsLocated.tail hnames.1).bind
        fun _ _ => failsOnly_ok _

theorem located_variantSize : ∀ {variants : List (String × List (String × Schema))}
    {layouts : List (VariantKey × List (String × Layout))},
    CompilesVariants (fun _ => False) discriminant variants layouts →
    ∀ (index : UInt8) {place : Nat} {tag : String} {schemas : List (String × Schema)},
    variants[place]? = some (tag, schemas) → ∀ fields,
    FailsOnly (FieldsLocated Step.isField discriminant schemas fields)
      (variantSize index layouts place fields)
  | _, _, .nil, _, _, _, _, hget, _ => nomatch hget
  | _, _, .cons hnames h _, _, 0, _, _, hget, fields => by
    cases hget
    exact located_fieldsSize h (List.nodup_cons.mp hnames).2 fields
  | _, _, .cons _ _ hs, index, _ + 1, _, _, hget, fields => located_variantSize hs index hget fields

end

end

end Layout

namespace Codec

variable {types : Extensions} {discriminant : String} {schema : Schema} {c : Codec} {v : Value}

theorem located_encode (hc : Compiles (fun _ => False) discriminant schema c.layout) {path : List Step}
    {why : Mismatch} (h : c.encode v = .error (.mismatch path why)) :
    (∃ n, c.size v = .ok n) ∧
        schema.Located (fun _ => true) discriminant v (.mismatch path why) ∨
      c.size v = .error (.mismatch path why) ∧
        schema.Located Step.isField discriminant v (.mismatch path why) := by
  rw [encode_eq] at h
  cases hsize : c.size v with
  | error failure =>
    rw [hsize] at h
    cases h
    exact Or.inr ⟨rfl, Layout.located_size hc v _ hsize⟩
  | ok n =>
    rw [hsize] at h
    refine Or.inl ⟨⟨n, rfl⟩, ?_⟩
    rcases hrun : c.encodeInto v (Writer.ofSize n) with ⟨failure | _, w⟩
    · simp only [bind, Except.bind, hrun] at h
      cases h
      exact Layout.located_write hc v (Writer.ofSize n) _ (congrArg Prod.fst hrun)
    · simp only [bind, Except.bind, hrun] at h
      split at h <;> cases h

/-- A mismatch is told by the names on its path, each before a colon, and by what it objects to. It is the
objection of the node at some path to the value that stands there. If the size of the whole value is known
the path is told in full, and otherwise by its fields alone: the elements of an array are sized without
being named. -/
theorem encode_mismatch_located (h : ofSchema types discriminant schema = .ok c) (hplain : c.IsPlain)
    {path : List Step} {why : Mismatch} (hencode : c.encode v = .error (.mismatch path why)) :
    (Failure.mismatch path why).message =
        "Invalid value: " ++ String.join (path.map fun step => step.text ++ ": ") ++ why.message ∧
      ∃ place node part inside, schema.nodeAt? discriminant place v = some (node, part) ∧
        node.objection? discriminant part = some (inside, why) ∧
        ((∃ n, c.size v = .ok n) → path = place ++ inside) ∧
        ((∃ failure, c.size v = .error failure) → path = (place ++ inside).filter Step.isField) := by
  refine ⟨rfl, ?_⟩
  rcases located_encode (hplain.compiles h) hencode with
    ⟨⟨n, hsize⟩, place, node, part, inside, hnode, hobjection, hpath⟩ |
    ⟨hsize, place, node, part, inside, hnode, hobjection, hpath⟩
  · rw [List.filter_true] at hpath
    refine ⟨place, node, part, inside, hnode, hobjection, fun _ => hpath, ?_⟩
    rintro ⟨failure, hfailure⟩
    cases hsize.symm.trans hfailure
  · refine ⟨place, node, part, inside, hnode, hobjection, ?_, fun _ => hpath⟩
    rintro ⟨n, hn⟩
    cases hsize.symm.trans hn

private def drawing : Schema :=
  .record [("shape", .union [("line", [("points",
    .array .one (.record [("x", .optional (.scalar .int8))]))])])]

private def drawingCodec : Codec :=
  .ofLayout ∅ drawing (.record [("shape", .union "type" [(⟨"line", 0⟩, [("points",
    .array .one (.record [("x", .optional (.scalar .int8))]))])] [("line", 0)])])

private def tooFar : Value :=
  .object [("shape", .object [("points", .array [.object [], .object [("x", .i32 300)]]),
    ("type", .string "line")])]

/-- The second point of a line is too far out, which only writing finds. -/
theorem encode_mismatch_located_drawing :
    ofSchema ∅ "type" drawing = .ok drawingCodec ∧ drawingCodec.IsPlain ∧
      drawingCodec.encode tooFar = .error (.mismatch
        [.field "shape", .field "points", .element 1, .field "x"] (.outOfRange 300 .int8)) ∧
      ∃ place node part inside, drawing.nodeAt? "type" place tooFar = some (node, part) ∧
        node.objection? "type" part = some (inside, .outOfRange 300 .int8) ∧
        [.field "shape", .field "points", .element 1, .field "x"] = place ++ inside := by
  have hcodec : ofSchema ∅ "type" drawing = .ok drawingCodec := rfl
  have hplain : drawingCodec.IsPlain := isPlain_of_empty hcodec
  have hencode : drawingCodec.encode tooFar = .error (.mismatch
      [.field "shape", .field "points", .element 1, .field "x"] (.outOfRange 300 .int8)) := rfl
  obtain ⟨-, place, node, part, inside, hnode, hobjection, hpath, -⟩ :=
    encode_mismatch_located hcodec hplain hencode
  exact ⟨hcodec, hplain, hencode, place, node, part, inside, hnode, hobjection, hpath ⟨5, rfl⟩⟩

private def words : Schema := .array .one (.scalar .string)

private def wordsCodec : Codec := .ofLayout ∅ words (.array .one (.scalar .string))

/-- A number among strings is met while sizing, and its place in the array is lost. -/
theorem encode_mismatch_loses_element :
    ¬∀ (discriminant : String) (schema : Schema) (c : Codec) (v : Value) (path : List Step)
      (why : Mismatch), ofSchema ∅ discriminant schema = .ok c → c.IsPlain →
      c.encode v = .error (.mismatch path why) →
      ∃ place node part inside, schema.nodeAt? discriminant place v = some (node, part) ∧
        node.objection? discriminant part = some (inside, why) ∧ path = place ++ inside := by
  intro hplaced
  have hcodec : ofSchema ∅ "type" words = .ok wordsCodec := rfl
  obtain ⟨place, node, part, inside, hnode, hobjection, hpath⟩ :=
    hplaced "type" words wordsCodec (.array [.u8 5]) [] (.shape (.scalar .string) .u8) hcodec
      (isPlain_of_empty hcodec) rfl
  obtain ⟨rfl, rfl⟩ := List.append_eq_nil_iff.mp hpath.symm
  -- At the empty path stands the array, and there is nothing wrong with it.
  cases hnode
  cases hobjection

end Codec

end WireSchema
