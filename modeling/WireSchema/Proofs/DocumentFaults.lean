import WireSchema.Proofs.Notation
import WireSchema.Proofs.Walks

/-! The place of the first node or body at fault is what is reported of a document. The map of variants
is no node and gives no name. -/

namespace WireSchema

/-- What is met in a document: nodes, and what stands for the fields of a variant. -/
inductive Json.Part where
  | node (j : Json)
  | body (j : Json)

namespace Schema

open Json (Part)

section

variable (members : List (String × Json))

def ordinalFault? : Option DocumentFault :=
  (members.filter fun m => m.1 != "flag").findSome? fun (key, value) =>
    if value.toInt64?.isNone then some (.notInteger key) else none

def labelFault? : Option DocumentFault :=
  ((members.filter fun m => m.1 != "flag").map Prod.fst).findSome? fun label =>
    if (numberLabel? label).isNone then some (.notNumberLabel label) else none

def missingFault? (key : String) : Option DocumentFault :=
  if (members.lookup key).isNone then some (.missing key) else none

def variantsFault? : Option DocumentFault :=
  match members.lookup "elements" with
  | none => some (.missing "elements")
  | some (.object _) => none
  | some other => some (.variantsNotObject other)

def flagFault? : Json → Option DocumentFault
  | .text "enum" => ordinalFault? members
  | .text "number-enum" => (ordinalFault? members).or (labelFault? members)
  | .text "bitmask" => ordinalFault? members
  | .text "optional" => missingFault? members "element"
  | .text "array-uint8" => missingFault? members "elements"
  | .text "array-uint16" => missingFault? members "elements"
  | .text "array-uint32" => some .wideCount
  | .text "type-lookup" => variantsFault? members
  | .text flag => some (.unknownFlag flag)
  | other => some (.flagNotText other)

end

/-- What is wrong at a part, all other parts set aside. -/
def partFault? : Part → Option DocumentFault
  | .node (.text _) => none
  | .node (.object members) => (members.lookup "flag").bind (flagFault? members)
  | .node other => some (.notSchema other)
  | .body (.object members) => if Assoc.contains "flag" members then some .variantNotPlain else none
  | .body _ => some .variantNotPlain

mutual

/-- The parts of a document in its order. -/
def documentWalk : Json → Walk Part
  | .object members =>
    ([], .node (.object members)) ::
      match members.lookup "flag" with
      | none => membersWalk members
      | some (.text "optional") => memberWalk "element" members
      | some (.text "array-uint8") => memberWalk "elements" members
      | some (.text "array-uint16") => memberWalk "elements" members
      | some (.text "type-lookup") => variantsMemberWalk members
      | some _ => []
  | other => [([], .node other)]

def membersWalk : List (String × Json) → Walk Part
  | [] => []
  | (name, j) :: rest => (documentWalk j).inside name ++ membersWalk rest

def memberWalk (key : String) : List (String × Json) → Walk Part
  | [] => []
  | (name, j) :: rest => if key == name then (documentWalk j).inside key else memberWalk key rest

def variantsMemberWalk : List (String × Json) → Walk Part
  | [] => []
  | (name, j) :: rest =>
    if "elements" == name then
      match j with
      | .object variants => documentVariantsWalk variants
      | _ => []
    else variantsMemberWalk rest

def documentVariantsWalk : List (String × Json) → Walk Part
  | [] => []
  | (tag, j) :: rest =>
    Walk.inside tag (([], .body j) ::
      match j with
      | .object members => membersWalk members
      | _ => []) ++ documentVariantsWalk rest

end

abbrev faulted? (path : SchemaPath) (walk : Walk Part) : Option SchemaError :=
  walk.report? partFault? .document path

theorem failure?_mapM {α β : Type} {f : α → Parsed β} {fault? : α → Option DocumentFault}
    {path : SchemaPath} (h : ∀ a, failure? (f a) = (fault? a).map (.document · path)) (as : List α) :
    failure? (as.mapM f) = (as.findSome? fault?).map (.document · path) := by
  induction as with
  | nil => rfl
  | cons a as ih =>
    have hcons : failure? (f a >>= fun b => as.mapM f >>= fun bs => pure (b :: bs)) =
        (failure? (f a)).or (failure? (as.mapM f)) := failure?_cons id (f a) (as.mapM f)
    rw [List.mapM_cons, List.findSome?_cons, hcons, ih, h a]
    cases fault? a <;> rfl

theorem failure?_ordinals (path : SchemaPath) (members : List (String × Json)) :
    failure? (ordinals path members) = (ordinalFault? members).map (.document · path) := by
  refine failure?_mapM (fun m => ?_) _
  cases h : m.2.toInt64? <;> simp [h, refuse]

theorem failure?_numberLabels {path : SchemaPath} {members : List (String × Json)}
    {labels : List (String × Int64)} (h : ordinals path members = .ok labels) :
    failure? (numberLabels path labels) = (labelFault? members).map (.document · path) := by
  rw [labelFault?, ← keys_of_ordinals h, List.findSome?_map]
  refine failure?_mapM (fun l => ?_) _
  cases h : numberLabel? l.1 <;> simp [h, refuse]

theorem failure?_numberEnum (path : SchemaPath) (members : List (String × Json)) :
    failure? (ordinals path members >>= fun labels => numberEnum <$> numberLabels path labels) =
      ((ordinalFault? members).or (labelFault? members)).map (.document · path) := by
  have hordinals := failure?_ordinals path members
  cases h : ordinals path members with
  | ok labels =>
    rw [h, failure?_ok] at hordinals
    have hnone : ordinalFault? members = none := Option.map_eq_none_iff.mp hordinals.symm
    rw [hnone, Option.none_or, ← failure?_numberLabels h]
    exact failure?_map _ _
  | error e =>
    rw [h, failure?_error] at hordinals
    obtain ⟨fault, hfault, rfl⟩ := Option.map_eq_some_iff.mp hordinals.symm
    rw [hfault]
    rfl

mutual

theorem failure?_ofJson : ∀ (path : SchemaPath) (j : Json),
    failure? (ofJson path j) = faulted? path (documentWalk j)
  | path, .null | path, .bool _ | path, .int _ | path, .float _ | path, .text _ | path, .array _ => by
    simp [ofJson, documentWalk, partFault?, refuse]
  | path, .object members => by
    have hfields := failure?_ofMembers path members
    have hmember := fun key => failure?_ofMember path key members
    have hvariants := failure?_ofVariantsMember path members
    simp only [ofJson, documentWalk, faulted?, Walk.report?_cons, partFault?, List.append_nil]
    generalize members.lookup "flag" = flag
    split
    · simp [hfields]
    -- one case a flag: the fault of the node itself, or else that of the one member which is gone into
    all_goals simp_all [flagFault?, refuse, failure?_ordinals, failure?_numberEnum]

theorem failure?_ofMembers : ∀ (path : SchemaPath) (members : List (String × Json)),
    failure? (ofMembers path members) = faulted? path (membersWalk members)
  | path, [] => rfl
  | path, (name, j) :: rest => by
    rw [ofMembers, membersWalk, failure?_cons, failure?_ofJson (path ++ [name]) j,
      failure?_ofMembers path rest]
    simp

theorem failure?_ofMember : ∀ (path : SchemaPath) (key : String) (members : List (String × Json)),
    failure? (ofMember path key members) =
      ((missingFault? members key).map (.document · path)).or (faulted? path (memberWalk key members))
  | path, key, [] => rfl
  | path, key, (name, j) :: rest => by
    have hj := failure?_ofJson (path ++ [key]) j
    have hrest := failure?_ofMember path key rest
    rw [ofMember, memberWalk, missingFault?, List.lookup_cons]
    cases h : key == name with
    | true => simp [hj]
    | false => simp [hrest, missingFault?]

theorem failure?_ofVariantsMember : ∀ (path : SchemaPath) (members : List (String × Json)),
    failure? (ofVariantsMember path members) =
      ((variantsFault? members).map (.document · path)).or (faulted? path (variantsMemberWalk members))
  | path, [] => rfl
  | path, (name, j) :: rest => by
    have hrest := failure?_ofVariantsMember path rest
    cases j with
    | object variants =>
      have hvariants := failure?_ofVariants path variants
      rw [ofVariantsMember, variantsMemberWalk, variantsFault?, List.lookup_cons]
      cases h : "elements" == name with
      | true => simp [hvariants]
      | false => simp [hrest, variantsFault?]
    | _ =>
      simp only [ofVariantsMember, variantsMemberWalk, variantsFault?, List.lookup_cons]
      cases h : "elements" == name with
      | true => simp [refuse]
      | false => simp [hrest, variantsFault?]

theorem failure?_ofVariants : ∀ (path : SchemaPath) (variants : List (String × Json)),
    failure? (ofVariants path variants) = faulted? path (documentVariantsWalk variants)
  | path, [] => rfl
  | path, (tag, j) :: rest => by
    have hrest := failure?_ofVariants path rest
    cases j with
    | object members =>
      have hfields := failure?_ofMembers (path ++ [tag]) members
      simp only [ofVariants, documentVariantsWalk]
      cases h : Assoc.contains "flag" members with
      | true =>
        rw [if_pos rfl, failure?_cons]
        simp [refuse, partFault?, h]
      | false =>
        rw [if_neg Bool.false_ne_true, failure?_cons, hfields, hrest]
        simp [partFault?, h]
    | _ =>
      simp only [ofVariants, documentVariantsWalk]
      rw [failure?_cons]
      simp [refuse, partFault?]

end

mutual

/-- `ofJson` as a program that goes into the parts and comes back. -/
def ofJsonOnWay : Json → OnWay Schema
  | .text name => pure (named name)
  | .object members =>
    match members.lookup "flag" with
    | none => .record <$> ofMembersOnWay members
    | some (.text "enum") => .enum <$> OnWay.here (ordinals · members)
    | some (.text "number-enum") => do
      let labels ← OnWay.here (ordinals · members)
      .numberEnum <$> OnWay.here (numberLabels · labels)
    | some (.text "bitmask") => .bitmask <$> OnWay.here (ordinals · members)
    | some (.text "optional") => .optional <$> ofMemberOnWay "element" members
    | some (.text "array-uint8") => .array .one <$> ofMemberOnWay "elements" members
    | some (.text "array-uint16") => .array .two <$> ofMemberOnWay "elements" members
    | some (.text "array-uint32") => OnWay.here (refuse · .wideCount)
    | some (.text "type-lookup") => .union <$> ofVariantsMemberOnWay members
    | some (.text flag) => OnWay.here (refuse · (.unknownFlag flag))
    | some other => OnWay.here (refuse · (.flagNotText other))
  | other => OnWay.here (refuse · (.notSchema other))

def ofMembersOnWay : List (String × Json) → OnWay (List (String × Schema))
  | [] => pure []
  | (name, j) :: rest => do
    let schema ← OnWay.nested name (ofJsonOnWay j)
    let fields ← ofMembersOnWay rest
    return (name, schema) :: fields

def ofMemberOnWay (key : String) : List (String × Json) → OnWay Schema
  | [] => OnWay.here (refuse · (.missing key))
  | (name, j) :: rest => if key == name then OnWay.nested key (ofJsonOnWay j) else ofMemberOnWay key rest

def ofVariantsMemberOnWay : List (String × Json) → OnWay (List (String × List (String × Schema)))
  | [] => OnWay.here (refuse · (.missing "elements"))
  | (name, j) :: rest =>
    if "elements" == name then
      match j with
      | .object variants => ofVariantsOnWay variants
      | other => OnWay.here (refuse · (.variantsNotObject other))
    else ofVariantsMemberOnWay rest

def ofVariantsOnWay : List (String × Json) → OnWay (List (String × List (String × Schema)))
  | [] => pure []
  | (tag, j) :: rest => do
    let fields ← OnWay.nested tag (match j with
      | .object members =>
        if Assoc.contains "flag" members then OnWay.here (refuse · .variantNotPlain)
        else ofMembersOnWay members
      | _ => OnWay.here (refuse · .variantNotPlain))
    let variants ← ofVariantsOnWay rest
    return (tag, fields) :: variants

end

mutual

theorem keeps_ofJsonOnWay : ∀ j : Json, (ofJsonOnWay j).Keeps (ofJson · j)
  | .null | .bool _ | .int _ | .float _ | .array _ => OnWay.keeps_here _
  | .text name => OnWay.keeps_pure (named name)
  | .object members => by
    have hfields := keeps_ofMembersOnWay members
    have hmember := fun key => keeps_ofMemberOnWay key members
    have hvariants := keeps_ofVariantsMemberOnWay members
    have hordinals := OnWay.keeps_here (ordinals · members)
    simp only [ofJsonOnWay, ofJson]
    generalize members.lookup "flag" = flag
    split
    · exact hfields.map record
    · exact hordinals.map enum
    · exact hordinals.bind fun labels => (OnWay.keeps_here (numberLabels · labels)).map numberEnum
    · exact hordinals.map bitmask
    · exact (hmember "element").map optional
    · exact (hmember "elements").map (array .one)
    · exact (hmember "elements").map (array .two)
    · exact OnWay.keeps_here _
    · exact hvariants.map union
    -- an unknown flag, and what is no text
    all_goals simp only [*, OnWay.keeps_here]

theorem keeps_ofMembersOnWay : ∀ members : List (String × Json),
    (ofMembersOnWay members).Keeps (ofMembers · members)
  | [] => OnWay.keeps_pure []
  | (name, j) :: rest => by
    simp only [ofMembersOnWay, ofMembers]
    refine ((keeps_ofJsonOnWay j).nested name).bind fun schema => ?_
    exact (keeps_ofMembersOnWay rest).bind fun fields => OnWay.keeps_pure ((name, schema) :: fields)

theorem keeps_ofMemberOnWay : ∀ (key : String) (members : List (String × Json)),
    (ofMemberOnWay key members).Keeps (ofMember · key members)
  | _, [] => OnWay.keeps_here _
  | key, (name, j) :: rest => by
    simp only [ofMemberOnWay, ofMember]
    cases key == name with
    | true => exact (keeps_ofJsonOnWay j).nested key
    | false => exact keeps_ofMemberOnWay key rest

theorem keeps_ofVariantsMemberOnWay : ∀ members : List (String × Json),
    (ofVariantsMemberOnWay members).Keeps (ofVariantsMember · members)
  | [] => OnWay.keeps_here _
  | (name, j) :: rest => by
    have hrest := keeps_ofVariantsMemberOnWay rest
    cases j with
    | object variants =>
      simp only [ofVariantsMemberOnWay, ofVariantsMember]
      cases "elements" == name with
      | true => exact keeps_ofVariantsOnWay variants
      | false => exact hrest
    | _ =>
      simp only [ofVariantsMemberOnWay, ofVariantsMember]
      cases "elements" == name with
      | true => exact OnWay.keeps_here _
      | false => exact hrest

theorem keeps_ofVariantsOnWay : ∀ variants : List (String × Json),
    (ofVariantsOnWay variants).Keeps (ofVariants · variants)
  | [] => OnWay.keeps_pure []
  | (tag, j) :: rest => by
    have hrest := fun fields => (keeps_ofVariantsOnWay rest).bind fun variants =>
      OnWay.keeps_pure ((tag, fields) :: variants)
    have hplain := (OnWay.keeps_here (refuse (α := List (String × Schema)) · .variantNotPlain)).nested tag
    cases j with
    | object members =>
      simp only [ofVariantsOnWay, ofVariants]
      cases Assoc.contains "flag" members with
      | true => exact hplain.bind hrest
      | false => exact ((keeps_ofMembersOnWay members).nested tag).bind hrest
    | _ =>
      simp only [ofVariantsOnWay, ofVariants]
      exact hplain.bind hrest

end

/-- A document is rejected for the first part that is at fault, and a reader that has the names on the way on a
stack rejects it for the same and leaves the stack as it was. -/
theorem ofDocument_error_located (document : Json) :
    (∀ e, ofDocument document = .error e ↔ ∃ before place part after fault,
      documentWalk document = before ++ (place, part) :: after ∧
      (∀ b ∈ before, partFault? b.2 = none) ∧ partFault? part = some fault ∧ e = .document fault place) ∧
    (∀ (fault : DocumentFault) (place : SchemaPath), (SchemaError.document fault place).message =
      "Parse error: " ++ fault.message ++ " at '" ++
        (if place = [] then "<root>" else ".".intercalate place) ++ "'") ∧
    (ofJsonOnWay document).Keeps (ofJson · document) := by
  refine ⟨fun e => ?_, ?_, keeps_ofJsonOnWay document⟩
  · rw [ofDocument, ← failure?_eq_some_iff, failure?_ofJson]
    exact Walk.report?_eq_some_iff
  · intro fault place
    cases place <;> rfl

example : ofDocument (.object [("id", .text "uint8"), ("items", .object
      [("flag", .text "array-uint8"), ("elements", .object [("pos", .int 3)])])]) =
    .error (.document (.notSchema (.int 3)) ["items", "elements", "pos"]) := rfl

end Schema

end WireSchema
