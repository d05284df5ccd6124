import WireSchema.Proofs.WellFormed

/-! The notation holds every schema in which no name is repeated and none that stands beside a flag is
`flag` itself. A numeric label may even come twice, for its digits may start with zeros. -/

namespace WireSchema

namespace Json

mutual

/-- A document as a JSON reader gives it: the members of an object have different names, integers have 64
bits, and floats are numbers. -/
def Proper : Json → Prop
  | .null | .bool _ | .text _ => True
  | .int n => -0x8000000000000000 ≤ n ∧ n < 0x10000000000000000
  | .float x => x.isFinite = true
  | .array items => ItemsProper items
  | .object members => (members.map Prod.fst).Nodup ∧ MembersProper members

def ItemsProper : List Json → Prop
  | [] => True
  | j :: rest => j.Proper ∧ ItemsProper rest

def MembersProper : List (String × Json) → Prop
  | [] => True
  | (_, j) :: rest => j.Proper ∧ MembersProper rest

end

theorem membersProper_iff {members : List (String × Json)} :
    MembersProper members ↔ ∀ m ∈ members, m.2.Proper := by
  induction members with
  | nil => exact iff_of_true trivial fun m hm => nomatch hm
  | cons m rest ih => rw [MembersProper, List.forall_mem_cons, ih]

end Json

namespace Schema

open Json

/-- Names that can stand beside a flag. -/
def Unreserved (names : List String) : Prop := "flag" ∉ names ∧ names.Nodup

/-- What the notation asks of a node, whatever stands inside it. -/
def KeepsNotation : Schema → Prop
  | .scalar _ | .numberEnum _ | .optional _ | .array _ _ => True
  | .custom name => ∀ type : Scalar, name ≠ type.name
  | .enum labels => Unreserved (labels.map Prod.fst)
  | .bitmask flags => Unreserved (flags.map Prod.fst)
  | .union variants => (variants.map Prod.fst).Nodup ∧
    ∀ v ∈ variants, Unreserved (v.2.map Prod.fst)
  | .record fields => Unreserved (fields.map Prod.fst)

def Expressible (schema : Schema) : Prop := schema.Everywhere KeepsNotation

def spelling (zeros : Nat) (label : Int32) : String :=
  let digits := List.replicate zeros '0' ++ Nat.toDigits 10 label.toInt.natAbs
  String.ofList (if label.toInt < 0 then '-' :: digits else digits)

/-- Numeric labels as names, each behind as many zeros as there are equal labels before it. -/
def spelled (earlier : List Int32) : List (Int32 × Int64) → List (String × Int64)
  | [] => []
  | (label, ordinal) :: rest =>
    (spelling (earlier.count label) label, ordinal) :: spelled (label :: earlier) rest

def flagged (flag : String) (members : List (String × Json)) : Json :=
  .object (("flag", .text flag) :: members)

def labelMembers (labels : List (String × Int64)) : List (String × Json) :=
  labels.map fun l => (l.1, .int l.2.toInt)

mutual

def toDocument : Schema → Json
  | .scalar type => .text type.name
  | .custom name => .text name
  | .enum labels => flagged "enum" (labelMembers labels)
  | .numberEnum labels => flagged "number-enum" (labelMembers (spelled [] labels))
  | .bitmask flags => flagged "bitmask" (labelMembers flags)
  | .optional inner => flagged "optional" [("element", toDocument inner)]
  | .array count element => flagged count.name [("elements", toDocument element)]
  | .union variants => flagged "type-lookup" [("elements", .object (variantMembers variants))]
  | .record fields => .object (fieldMembers fields)

def fieldMembers : List (String × Schema) → List (String × Json)
  | [] => []
  | (name, schema) :: rest => (name, toDocument schema) :: fieldMembers rest

def variantMembers : List (String × List (String × Schema)) → List (String × Json)
  | [] => []
  | (tag, fields) :: rest => (tag, .object (fieldMembers fields)) :: variantMembers rest

end

theorem keys_fieldMembers (fields : List (String × Schema)) :
    (fieldMembers fields).map Prod.fst = fields.map Prod.fst := by
  induction fields with
  | nil => rfl
  | cons f rest ih => rw [fieldMembers, List.map_cons, List.map_cons, ih]

theorem keys_variantMembers (variants : List (String × List (String × Schema))) :
    (variantMembers variants).map Prod.fst = variants.map Prod.fst := by
  induction variants with
  | nil => rfl
  | cons v rest ih => rw [variantMembers, List.map_cons, List.map_cons, ih]

theorem keys_labelMembers (labels : List (String × Int64)) :
    (labelMembers labels).map Prod.fst = labels.map Prod.fst := by
  rw [labelMembers, List.map_map]
  rfl

theorem lookup_flag_eq_none_iff {members : List (String × Json)} :
    members.lookup "flag" = none ↔ "flag" ∉ members.map Prod.fst := by
  rw [← Assoc.isSome_lookup_iff, Bool.not_eq_true, Option.isSome_eq_false_iff, Option.isNone_iff_eq_none]

theorem numberLabel?_digits (negative : Bool) {digits : List Char} (hne : digits ≠ [])
    (hdigits : ∀ c ∈ digits, c.isDigit = true) {n : Int}
    (hn : n = if negative then -(Nat.ofDigitChars 10 digits 0 : Int) else Nat.ofDigitChars 10 digits 0) :
    numberLabel? (String.ofList (if negative then '-' :: digits else digits)) =
      if -0x80000000 ≤ n ∧ n < 0x80000000 then some (Int32.ofInt n) else none := by
  have hall : (digits.isEmpty || !digits.all Char.isDigit) = false := by
    rw [List.isEmpty_eq_false_iff.mpr hne, List.all_eq_true.mpr hdigits]
    rfl
  subst hn
  cases negative with
  | true =>
    simp only [numberLabel?, if_true, String.toList_ofList, hall, Bool.false_eq_true, if_false]
    rfl
  | false =>
    -- The first digit is neither sign.
    obtain ⟨d, rest, rfl⟩ := List.exists_cons_of_ne_nil hne
    have hd := hdigits d List.mem_cons_self
    have hminus : d ≠ '-' := by
      rintro rfl
      cases hd
    have hplus : d ≠ '+' := by
      rintro rfl
      cases hd
    rw [if_neg Bool.false_ne_true, if_neg Bool.false_ne_true, numberLabel?, String.toList_ofList]
    split
    rename_i hsign
    split at hsign
    · rename_i heq
      exact (hminus (List.cons.inj heq).1).elim
    · rename_i heq
      exact (hplus (List.cons.inj heq).1).elim
    · cases hsign
      rw [hall, if_neg Bool.false_ne_true]
      rfl

theorem ofDigitChars_zeros (zeros : Nat) (digits : List Char) :
    Nat.ofDigitChars 10 (List.replicate zeros '0' ++ digits) 0 = Nat.ofDigitChars 10 digits 0 := by
  induction zeros with
  | zero => rfl
  | succ zeros ih =>
    rw [List.replicate_succ, List.cons_append, Nat.ofDigitChars_cons]
    exact ih

theorem numberLabel?_spelling (zeros : Nat) (label : Int32) :
    numberLabel? (spelling zeros label) = some label := by
  have hdigits : ∀ c ∈ List.replicate zeros '0' ++ Nat.toDigits 10 label.toInt.natAbs,
      c.isDigit = true := by
    intro c hc
    rcases List.mem_append.mp hc with hzero | hdigit
    · rw [List.eq_of_mem_replicate hzero]
      rfl
    · exact Nat.isDigit_of_mem_toDigits (by decide) (by decide) hdigit
  have hvalue : Nat.ofDigitChars 10 (List.replicate zeros '0' ++ Nat.toDigits 10 label.toInt.natAbs) 0 =
      label.toInt.natAbs := by
    rw [ofDigitChars_zeros, Nat.ofDigitChars_toDigits (by decide) (by decide)]
  have hne : List.replicate zeros '0' ++ Nat.toDigits 10 label.toInt.natAbs ≠ [] :=
    List.append_ne_nil_of_right_ne_nil _ Nat.toDigits_ne_nil
  have hread := numberLabel?_digits (decide (label.toInt < 0)) hne hdigits (n := label.toInt)
    (by rw [hvalue]; simp only [decide_eq_true_eq]; split <;> omega)
  simp only [decide_eq_true_eq] at hread
  rw [spelling, hread, if_pos ⟨label.le_toInt, label.toInt_lt⟩, Int32.ofInt_toInt]

theorem spelling_inj {zeros zeros' : Nat} {label label' : Int32}
    (h : spelling zeros label = spelling zeros' label') : zeros = zeros' ∧ label = label' := by
  obtain rfl : label = label' := by
    have hread := numberLabel?_spelling zeros label
    rw [h, numberLabel?_spelling] at hread
    exact (Option.some.inj hread).symm
  refine ⟨?_, rfl⟩
  have hlength := congrArg List.length (congrArg String.toList h)
  simp only [spelling, String.toList_ofList] at hlength
  split at hlength <;> simpa using hlength

theorem spelling_ne_flag (zeros : Nat) (label : Int32) : "flag" ≠ spelling zeros label := by
  intro h
  have hread := numberLabel?_spelling zeros label
  rw [← h] at hread
  cases hread

/-- A later label has more zeros than all its equals before. -/
theorem exists_of_mem_spelled {earlier : List Int32} {labels : List (Int32 × Int64)} {name : String}
    (h : name ∈ (spelled earlier labels).map Prod.fst) :
    ∃ zeros label, earlier.count label ≤ zeros ∧ name = spelling zeros label := by
  induction labels generalizing earlier with
  | nil => cases h
  | cons l rest ih =>
    rw [spelled, List.map_cons, List.mem_cons] at h
    rcases h with rfl | h
    · exact ⟨_, l.1, Nat.le_refl _, rfl⟩
    · obtain ⟨zeros, label, hcount, rfl⟩ := ih h
      exact ⟨zeros, label, (List.count_le_count_cons).trans hcount, rfl⟩

theorem unreserved_spelled (labels : List (Int32 × Int64)) :
    Unreserved ((spelled [] labels).map Prod.fst) := by
  constructor
  · intro hmem
    obtain ⟨zeros, label, -, hflag⟩ := exists_of_mem_spelled hmem
    exact spelling_ne_flag zeros label hflag
  · generalize ([] : List Int32) = earlier
    induction labels generalizing earlier with
    | nil => exact List.nodup_nil
    | cons l rest ih =>
      rw [spelled, List.map_cons, List.nodup_cons]
      refine ⟨fun hmem => ?_, ih _⟩
      obtain ⟨zeros, label, hcount, heq⟩ := exists_of_mem_spelled hmem
      obtain ⟨rfl, rfl⟩ := spelling_inj heq
      rw [List.count_cons_self] at hcount
      omega

example : spelled [] [(10, 3), (-7, 4), (10, 5)] = [("10", 3), ("-7", 4), ("010", 5)] := rfl

theorem numberLabels_spelled (path : SchemaPath) (earlier : List Int32) (labels : List (Int32 × Int64)) :
    numberLabels path (spelled earlier labels) = .ok labels := by
  rw [numberLabels]
  induction labels generalizing earlier with
  | nil => rfl
  | cons l rest ih =>
    rw [spelled, List.mapM_cons, ih]
    simp only [numberLabel?_spelling]
    rfl

theorem ordinals_labelMembers (path : SchemaPath) (j : Json) {labels : List (String × Int64)}
    (h : "flag" ∉ labels.map Prod.fst) :
    ordinals path (("flag", j) :: labelMembers labels) = .ok labels := by
  have hkept : (("flag", j) :: labelMembers labels).filter (fun m => m.1 != "flag") =
      labelMembers labels := by
    rw [List.filter_cons_of_neg (by simp), List.filter_eq_self]
    intro m hm
    rw [bne_iff_ne]
    intro heq
    apply h
    rw [← keys_labelMembers, ← heq]
    exact List.mem_map_of_mem hm
  rw [ordinals, hkept, labelMembers, List.mapM_map]
  clear h hkept
  induction labels with
  | nil => rfl
  | cons l rest ih =>
    have hfits : (Json.int l.2.toInt).toInt64? = some l.2 := by
      have hlt : l.2.toInt < 0x8000000000000000 := l.2.toInt_lt
      rw [toInt64?, if_pos hlt, Int64.ofInt_toInt]
    rw [List.mapM_cons, ih]
    simp only [Function.comp_apply, hfits]
    rfl

mutual

theorem ofJson_toDocument : ∀ {schema : Schema}, schema.Expressible → ∀ path,
    ofJson path schema.toDocument = .ok schema
  | .scalar type, _, path => by
    rw [toDocument, ofJson, named, Scalar.ofName?_name]
  | .custom name, h, path => by
    have hother : Scalar.ofName? name = none :=
      List.find?_eq_none.mpr fun type _ hname =>
        (h _ .refl : KeepsNotation (.custom name)) type (eq_of_beq hname).symm
    rw [toDocument, ofJson, named, hother]
  | .enum labels, h, path => by
    have hnames : Unreserved (labels.map Prod.fst) := h _ .refl
    rw [toDocument, flagged, ofJson, List.lookup_cons_self]
    simp only [ordinals_labelMembers path _ hnames.1]
    rfl
  | .numberEnum labels, _, path => by
    rw [toDocument, flagged, ofJson, List.lookup_cons_self]
    simp only [ordinals_labelMembers path _ (unreserved_spelled labels).1, bind, Except.bind,
      numberLabels_spelled]
    rfl
  | .bitmask flags, h, path => by
    have hnames : Unreserved (flags.map Prod.fst) := h _ .refl
    rw [toDocument, flagged, ofJson, List.lookup_cons_self]
    simp only [ordinals_labelMembers path _ hnames.1]
    rfl
  | .optional inner, h, path => by
    rw [Expressible, everywhere_optional_iff] at h
    rw [toDocument, flagged, ofJson, List.lookup_cons_self]
    simp only [ofMember, ofJson_toDocument h.2]
    rfl
  | .array count element, h, path => by
    rw [Expressible, everywhere_array_iff] at h
    rw [toDocument, flagged, ofJson, List.lookup_cons_self]
    cases count <;> simp only [CountWidth.name, ofMember, ofJson_toDocument h.2] <;> rfl
  | .union variants, h, path => by
    rw [Expressible, everywhere_union_iff] at h
    rw [toDocument, flagged, ofJson, List.lookup_cons_self]
    simp only [ofVariantsMember, ofVariants_variantMembers (fun v hv => (h.1.2 v hv).1) h.2]
    rfl
  | .record fields, h, path => by
    rw [Expressible, everywhere_record_iff] at h
    have hflag : (fieldMembers fields).lookup "flag" = none := by
      rw [lookup_flag_eq_none_iff, keys_fieldMembers]
      exact h.1.1
    rw [toDocument, ofJson, hflag]
    simp only [ofMembers_fieldMembers h.2]
    rfl

theorem ofMembers_fieldMembers : ∀ {fields : List (String × Schema)},
    (∀ f ∈ fields, f.2.Expressible) → ∀ path, ofMembers path (fieldMembers fields) = .ok fields
  | [], _, _ => rfl
  | (name, schema) :: rest, h, path => by
    rw [List.forall_mem_cons] at h
    rw [fieldMembers, ofMembers, ofJson_toDocument h.1, ofMembers_fieldMembers h.2]
    rfl

theorem ofVariants_variantMembers : ∀ {variants : List (String × List (String × Schema))},
    (∀ v ∈ variants, "flag" ∉ v.2.map Prod.fst) → (∀ v ∈ variants, ∀ f ∈ v.2, f.2.Expressible) →
    ∀ path, ofVariants path (variantMembers variants) = .ok variants
  | [], _, _, _ => rfl
  | (tag, fields) :: rest, hflag, h, path => by
    rw [List.forall_mem_cons] at hflag h
    have hplain : Assoc.contains "flag" (fieldMembers fields) = false := by
      rw [Assoc.contains, lookup_flag_eq_none_iff.mpr (keys_fieldMembers fields ▸ hflag.1)]
      rfl
    rw [variantMembers, ofVariants]
    simp only [hplain, Bool.false_eq_true, if_false, ofMembers_fieldMembers h.1,
      ofVariants_variantMembers hflag.2 h.2]
    rfl

end

theorem membersProper_labelMembers (labels : List (String × Int64)) :
    MembersProper (labelMembers labels) := by
  rw [membersProper_iff]
  intro m hm
  obtain ⟨l, -, rfl⟩ := List.mem_map.mp hm
  have hlow := l.2.le_toInt
  have hhigh := l.2.toInt_lt
  rw [Proper]
  omega

theorem proper_flagged_labels (flag : String) {labels : List (String × Int64)}
    (h : Unreserved (labels.map Prod.fst)) : (flagged flag (labelMembers labels)).Proper := by
  refine ⟨?_, trivial, membersProper_labelMembers labels⟩
  rw [List.map_cons, keys_labelMembers, List.nodup_cons]
  exact h

theorem proper_flagged (flag : String) {key : String} (hkey : "flag" ≠ key) {j : Json} (h : j.Proper) :
    (flagged flag [(key, j)]).Proper := by
  refine ⟨?_, trivial, h, trivial⟩
  rw [List.map_cons, List.map_cons, List.map_nil, List.nodup_cons, List.mem_singleton]
  exact ⟨hkey, List.nodup_singleton key⟩

mutual

theorem proper_toDocument : ∀ {schema : Schema}, schema.Expressible → schema.toDocument.Proper
  | .scalar _, _ | .custom _, _ => trivial
  | .enum labels, h => proper_flagged_labels "enum" (h _ .refl)
  | .numberEnum labels, _ => proper_flagged_labels "number-enum" (unreserved_spelled labels)
  | .bitmask flags, h => proper_flagged_labels "bitmask" (h _ .refl)
  | .optional inner, h =>
    proper_flagged "optional" (by decide) (proper_toDocument (everywhere_optional_iff.mp h).2)
  | .array count element, h =>
    proper_flagged count.name (by decide) (proper_toDocument (everywhere_array_iff.mp h).2)
  | .union variants, h => by
    rw [Expressible, everywhere_union_iff] at h
    refine proper_flagged "type-lookup" (by decide) ⟨keys_variantMembers variants ▸ h.1.1, ?_⟩
    exact proper_variantMembers (fun v hv => (h.1.2 v hv).2) h.2
  | .record fields, h => by
    rw [Expressible, everywhere_record_iff] at h
    exact ⟨keys_fieldMembers fields ▸ h.1.2, proper_fieldMembers h.2⟩

theorem proper_fieldMembers : ∀ {fields : List (String × Schema)},
    (∀ f ∈ fields, f.2.Expressible) → MembersProper (fieldMembers fields)
  | [], _ => trivial
  | (_, _) :: _, h => by
    rw [List.forall_mem_cons] at h
    exact ⟨proper_toDocument h.1, proper_fieldMembers h.2⟩

theorem proper_variantMembers : ∀ {variants : List (String × List (String × Schema))},
    (∀ v ∈ variants, (v.2.map Prod.fst).Nodup) → (∀ v ∈ variants, ∀ f ∈ v.2, f.2.Expressible) →
    MembersProper (variantMembers variants)
  | [], _, _ => trivial
  | (_, fields) :: _, hnames, h => by
    rw [List.forall_mem_cons] at hnames h
    exact ⟨⟨keys_fieldMembers fields ▸ hnames.1, proper_fieldMembers h.1⟩,
      proper_variantMembers hnames.2 h.2⟩

end

theorem keys_of_mapM_eq_ok {ε α β γ : Type} {f : α × β → Except ε (α × γ)}
    (hf : ∀ a b, f a = .ok b → b.1 = a.1) {items : List (α × β)} {parts : List (α × γ)}
    (h : items.mapM f = .ok parts) : parts.map Prod.fst = items.map Prod.fst := by
  induction items generalizing parts with
  | nil =>
    cases h
    rfl
  | cons a rest ih =>
    rw [List.mapM_cons] at h
    obtain ⟨b, hb, h⟩ := bind_eq_ok_iff.mp h
    obtain ⟨others, hothers, h⟩ := bind_eq_ok_iff.mp h
    cases h
    rw [List.map_cons, List.map_cons, hf a b hb, ih hothers]

theorem keys_of_ordinals {path : SchemaPath} {members : List (String × Json)}
    {labels : List (String × Int64)} (h : ordinals path members = .ok labels) :
    labels.map Prod.fst = (members.filter fun m => m.1 != "flag").map Prod.fst := by
  refine keys_of_mapM_eq_ok (fun m b hb => ?_) h
  cases hn : m.2.toInt64? with
  | none =>
    simp only [hn] at hb
    cases hb
  | some n =>
    simp only [hn] at hb
    cases hb
    rfl

theorem unreserved_of_ordinals {path : SchemaPath} {members : List (String × Json)}
    (hnames : (members.map Prod.fst).Nodup) {labels : List (String × Int64)}
    (h : ordinals path members = .ok labels) : Unreserved (labels.map Prod.fst) := by
  rw [keys_of_ordinals h]
  constructor
  · intro hmem
    obtain ⟨m, hm, hflag⟩ := List.mem_map.mp hmem
    exact bne_iff_ne.mp (List.mem_filter.mp hm).2 hflag
  · exact hnames.sublist (List.filter_sublist.map Prod.fst)

theorem expressible_named (name : String) : (named name).Expressible := by
  rw [named]
  split
  · refine (everywhere_leaf_iff ?_).mpr trivial
    exact fun child hchild => nomatch hchild
  · rename_i hnone
    refine (everywhere_leaf_iff ?_).mpr ?_
    · exact fun child hchild => nomatch hchild
    · rintro type rfl
      rw [Scalar.ofName?_name] at hnone
      cases hnone

mutual

theorem expressible_of_ofJson : ∀ {path : SchemaPath} {j : Json} {schema : Schema}, j.Proper →
    ofJson path j = .ok schema → schema.Expressible
  | _, .text name, _, _, h => by
    cases h
    exact expressible_named name
  | path, .object members, schema, ⟨hnames, hproper⟩, h => by
    rw [ofJson] at h
    split at h
    · rename_i hflag
      obtain ⟨fields, hfields, rfl⟩ := map_eq_ok_iff.mp h
      obtain ⟨hkeys, hfields⟩ := expressible_of_ofMembers hproper hfields
      refine everywhere_record_iff.mpr ⟨?_, hfields⟩
      rw [KeepsNotation, hkeys]
      exact ⟨lookup_flag_eq_none_iff.mp hflag, hnames⟩
    · obtain ⟨labels, hlabels, rfl⟩ := map_eq_ok_iff.mp h
      refine (everywhere_leaf_iff ?_).mpr (unreserved_of_ordinals hnames hlabels)
      exact fun child hchild => nomatch hchild
    · obtain ⟨labels, -, h⟩ := bind_eq_ok_iff.mp h
      obtain ⟨labels, -, rfl⟩ := map_eq_ok_iff.mp h
      refine (everywhere_leaf_iff ?_).mpr trivial
      exact fun child hchild => nomatch hchild
    · obtain ⟨flags, hflags, rfl⟩ := map_eq_ok_iff.mp h
      refine (everywhere_leaf_iff ?_).mpr (unreserved_of_ordinals hnames hflags)
      exact fun child hchild => nomatch hchild
    · obtain ⟨inner, hinner, rfl⟩ := map_eq_ok_iff.mp h
      exact everywhere_optional_iff.mpr ⟨trivial, expressible_of_ofMember hproper hinner⟩
    · obtain ⟨element, helement, rfl⟩ := map_eq_ok_iff.mp h
      exact everywhere_array_iff.mpr ⟨trivial, expressible_of_ofMember hproper helement⟩
    · obtain ⟨element, helement, rfl⟩ := map_eq_ok_iff.mp h
      exact everywhere_array_iff.mpr ⟨trivial, expressible_of_ofMember hproper helement⟩
    · cases h
    · obtain ⟨variants, hvariants, rfl⟩ := map_eq_ok_iff.mp h
      exact expressible_of_ofVariantsMember hproper hvariants
    · cases h
    · cases h
  | _, .null, _, _, h | _, .bool _, _, _, h | _, .int _, _, _, h | _, .float _, _, _, h
  | _, .array _, _, _, h => nomatch h

theorem expressible_of_ofMembers : ∀ {path : SchemaPath} {members : List (String × Json)}
    {fields : List (String × Schema)}, MembersProper members → ofMembers path members = .ok fields →
    fields.map Prod.fst = members.map Prod.fst ∧ ∀ f ∈ fields, f.2.Expressible
  | _, [], _, _, h => by
    cases h
    exact ⟨rfl, fun f hf => nomatch hf⟩
  | path, (name, j) :: rest, fields, ⟨hj, hrest⟩, h => by
    rw [ofMembers] at h
    obtain ⟨schema, hschema, h⟩ := bind_eq_ok_iff.mp h
    obtain ⟨others, hothers, h⟩ := bind_eq_ok_iff.mp h
    cases h
    obtain ⟨hkeys, hothers⟩ := expressible_of_ofMembers hrest hothers
    rw [List.map_cons, List.map_cons, hkeys, List.forall_mem_cons]
    exact ⟨rfl, expressible_of_ofJson hj hschema, hothers⟩

theorem expressible_of_ofMember : ∀ {path : SchemaPath} {key : String}
    {members : List (String × Json)} {schema : Schema}, MembersProper members →
    ofMember path key members = .ok schema → schema.Expressible
  | _, _, [], _, _, h => nomatch h
  | path, key, (name, j) :: rest, schema, ⟨hj, hrest⟩, h => by
    rw [ofMember] at h
    split at h
    · exact expressible_of_ofJson hj h
    · exact expressible_of_ofMember hrest h

theorem expressible_of_ofVariantsMember : ∀ {path : SchemaPath} {members : List (String × Json)}
    {variants : List (String × List (String × Schema))}, MembersProper members →
    ofVariantsMember path members = .ok variants → (union variants).Expressible
  | _, [], _, _, h => nomatch h
  | path, (name, .object inner) :: rest, variants, ⟨⟨hnames, hinner⟩, hrest⟩, h => by
    rw [ofVariantsMember] at h
    split at h
    · obtain ⟨htags, hfields⟩ := expressible_of_ofVariants hinner h
      rw [Expressible, everywhere_union_iff]
      exact ⟨⟨htags ▸ hnames, fun v hv => (hfields v hv).1⟩, fun v hv => (hfields v hv).2⟩
    · exact expressible_of_ofVariantsMember hrest h
  | _, (_, .null) :: _, _, ⟨_, hrest⟩, h | _, (_, .bool _) :: _, _, ⟨_, hrest⟩, h
  | _, (_, .int _) :: _, _, ⟨_, hrest⟩, h | _, (_, .float _) :: _, _, ⟨_, hrest⟩, h
  | _, (_, .text _) :: _, _, ⟨_, hrest⟩, h | _, (_, .array _) :: _, _, ⟨_, hrest⟩, h => by
    simp only [ofVariantsMember] at h
    split at h
    · cases h
    · exact expressible_of_ofVariantsMember hrest h

theorem expressible_of_ofVariants : ∀ {path : SchemaPath} {members : List (String × Json)}
    {variants : List (String × List (String × Schema))}, MembersProper members →
    ofVariants path members = .ok variants →
    variants.map Prod.fst = members.map Prod.fst ∧
      ∀ v ∈ variants, Unreserved (v.2.map Prod.fst) ∧ ∀ f ∈ v.2, f.2.Expressible
  | _, [], _, _, h => by
    cases h
    exact ⟨rfl, fun v hv => nomatch hv⟩
  | path, (tag, .object inner) :: rest, variants, ⟨⟨hnames, hinner⟩, hrest⟩, h => by
    rw [ofVariants] at h
    split at h
    · cases h
    · rename_i hplain
      obtain ⟨fields, hfields, h⟩ := bind_eq_ok_iff.mp h
      obtain ⟨others, hothers, h⟩ := bind_eq_ok_iff.mp h
      cases h
      obtain ⟨hkeys, hfields⟩ := expressible_of_ofMembers hinner hfields
      obtain ⟨htags, hothers⟩ := expressible_of_ofVariants hrest hothers
      rw [List.map_cons, List.map_cons, htags, List.forall_mem_cons]
      refine ⟨rfl, ⟨?_, hfields⟩, hothers⟩
      rw [hkeys]
      exact ⟨fun hmem => hplain (Assoc.isSome_lookup_iff.mpr hmem), hnames⟩
  | _, (_, .null) :: _, _, _, h | _, (_, .bool _) :: _, _, _, h | _, (_, .int _) :: _, _, _, h
  | _, (_, .float _) :: _, _, _, h | _, (_, .text _) :: _, _, _, h
  | _, (_, .array _) :: _, _, _, h => nomatch h

end

/-- The notation expresses exactly the schemas whose names are neither repeated nor, beside a flag,
reserved, and in which no custom type has the name of a scalar type. A rendering of such a schema is read
back as it was, in all its orders. -/
theorem exists_ofDocument_iff_expressible (schema : Schema) :
    ((∃ document : Json, document.Proper ∧ ofDocument document = .ok schema) ↔ schema.Expressible) ∧
      (schema.toDocument.Proper ∧ ofDocument schema.toDocument = .ok schema ↔ schema.Expressible) := by
  have hread : ∀ document : Json, document.Proper ∧ ofDocument document = .ok schema →
      schema.Expressible := fun _ ⟨hproper, h⟩ => expressible_of_ofJson hproper h
  have hback : schema.Expressible →
      schema.toDocument.Proper ∧ ofDocument schema.toDocument = .ok schema :=
    fun h => ⟨proper_toDocument h, ofJson_toDocument h []⟩
  exact ⟨⟨fun ⟨document, h⟩ => hread document h, fun h => ⟨_, hback h⟩⟩, hread _, hback⟩

end Schema

end WireSchema
