import WireSchema.Proofs.Walks
import WireSchema.Proofs.WellFormed

/-! The checks report the first rule that is broken, with the place of the node that breaks it. What
stands in front and is in order has no part in the place. -/

namespace WireSchema

namespace Schema

/-- Why a schema is refused, apart from the place. -/
inductive Refusal where
  | violation (rule : Violation)
  | unknownCustom (name : String)

def Refusal.error : Refusal → SchemaPath → SchemaError
  | violation rule, place => .invalid rule place
  | unknownCustom name, place => .unknownCustom name (some place)

def Refusal.message (location : String) : Refusal → String
  | violation rule => "Validation error: " ++ rule.message ++ " at '" ++ location ++ "'"
  | unknownCustom name => "Unknown custom type: " ++ name ++ " (at '" ++ location ++ "')"

/-- What is checked: nodes, the names of fields and tags against those in front of them, and the fields of a
variant against the discriminant. -/
inductive Stop where
  | node (schema : Schema)
  | field (earlier : List String) (name : String)
  | variant (earlier : List String) (tag : String)
  | body (fields : List (String × Schema))

section

variable (types : Extensions) (discriminant : String)

def Stop.refusal? : Stop → Option Refusal
  | node (.custom name) => if types.contains name then none else some (.unknownCustom name)
  | node (.enum labels) => (enumViolation? .enum labels).map .violation
  | node (.numberEnum labels) =>
    (enumViolation? .numberEnum (labels.map fun l => (toString l.1.toInt, l.2))).map .violation
  | node (.bitmask flags) => (bitmaskViolation? flags).map .violation
  | node (.optional inner) => if inner.isOptional then some (.violation .nestedOptional) else none
  | node (.union variants) =>
    if variants.isEmpty then some (.violation .noVariants)
    else if maxVariants < variants.length then some (.violation (.tooManyVariants variants.length))
    else none
  | node _ => none
  | field earlier name =>
    if earlier.contains name then some (.violation (.duplicateField name)) else none
  | variant earlier tag =>
    if earlier.contains tag then some (.violation (.duplicateTag tag)) else none
  | body fields =>
    if fields.any fun f => f.1 == discriminant then
      some (.violation (.discriminantField discriminant))
    else none

end

mutual

/-- Everything that is checked in a schema, in the order of its declarations. -/
def walk : Schema → Walk Stop
  | .scalar type => [([], .node (.scalar type))]
  | .custom name => [([], .node (.custom name))]
  | .enum labels => [([], .node (.enum labels))]
  | .numberEnum labels => [([], .node (.numberEnum labels))]
  | .bitmask flags => [([], .node (.bitmask flags))]
  | .optional inner => ([], .node (.optional inner)) :: walk inner
  | .array count element =>
    ([], .node (.array count element)) :: (walk element).inside "elements"
  | .union variants => ([], .node (.union variants)) :: variantsWalk [] variants
  | .record fields => ([], .node (.record fields)) :: fieldsWalk [] fields

def fieldsWalk (earlier : List String) : List (String × Schema) → Walk Stop
  | [] => []
  | (name, schema) :: rest =>
    ([], .field earlier name) :: ((walk schema).inside name ++ fieldsWalk (name :: earlier) rest)

def variantsWalk (earlier : List String) : List (String × List (String × Schema)) → Walk Stop
  | [] => []
  | (tag, fields) :: rest =>
    ([], .variant earlier tag) ::
      (Walk.inside tag (([], .body fields) :: fieldsWalk [] fields) ++ variantsWalk (tag :: earlier) rest)

end

section

variable (types : Extensions) (discriminant : String)

abbrev refused? (path : SchemaPath) (walk : Walk Stop) : Option SchemaError :=
  walk.report? (Stop.refusal? types discriminant) Refusal.error path

theorem failure?_accept {schema : Schema} {rule? : Option Violation}
    (h : (Stop.node schema).refusal? types discriminant = rule?.map .violation) (path : SchemaPath) :
    failure? (accept path rule?) = refused? types discriminant path [([], .node schema)] := by
  rw [refused?, Walk.report?_cons, Walk.report?_nil, h, List.append_nil]
  cases rule? <;> rfl

mutual

theorem failure?_checkAt : ∀ (path : SchemaPath) (schema : Schema),
    failure? (checkAt types discriminant path schema) =
      refused? types discriminant path schema.walk
  | path, .scalar _ => rfl
  | path, .custom name => by
    rw [checkAt, walk, refused?, Walk.report?_cons, Stop.refusal?, List.append_nil]
    split <;> rfl
  | path, .enum labels => failure?_accept types discriminant rfl path
  | path, .numberEnum labels => failure?_accept types discriminant rfl path
  | path, .bitmask flags => failure?_accept types discriminant rfl path
  | path, .optional inner => by
    rw [checkAt, walk, refused?, Walk.report?_cons, Stop.refusal?, List.append_nil]
    split
    · rfl
    · exact failure?_checkAt path inner
  | path, .array count element => by
    rw [checkAt, walk, refused?, Walk.report?_cons, Walk.report?_inside]
    exact failure?_checkAt _ element
  | path, .union variants => by
    rw [checkAt, walk, refused?, Walk.report?_cons, Stop.refusal?, List.append_nil]
    split
    · rfl
    split
    · rfl
    · exact failure?_checkVariants path [] variants
  | path, .record fields => failure?_checkFields path [] fields

theorem failure?_checkFields : ∀ (path : SchemaPath) (earlier : List String)
    (fields : List (String × Schema)),
    failure? (checkFields types discriminant path earlier fields) =
      refused? types discriminant path (fieldsWalk earlier fields)
  | path, earlier, [] => rfl
  | path, earlier, (name, schema) :: rest => by
    rw [checkFields, fieldsWalk, refused?, Walk.report?_cons, Walk.report?_append, Walk.report?_inside,
      Stop.refusal?, List.append_nil]
    split
    · rfl
    · rw [failure?_bind fun _ => failure?_checkFields path (name :: earlier) rest,
        failure?_checkAt]
      rfl

theorem failure?_checkVariants : ∀ (path : SchemaPath) (earlier : List String)
    (variants : List (String × List (String × Schema))),
    failure? (checkVariants types discriminant path earlier variants) =
      refused? types discriminant path (variantsWalk earlier variants)
  | path, earlier, [] => rfl
  | path, earlier, (tag, fields) :: rest => by
    rw [checkVariants, variantsWalk, refused?, Walk.report?_cons, Walk.report?_append, Walk.report?_inside,
      Walk.report?_cons, Stop.refusal?, Stop.refusal?, List.append_nil, List.append_nil]
    split
    · rfl
    split
    · rfl
    · rw [failure?_bind fun _ => failure?_checkVariants path (tag :: earlier) rest,
        failure?_checkFields]
      rfl

end

end

section

variable {types : Extensions} {discriminant : String} {schema : Schema} {refusal : Refusal}
  {place : SchemaPath}

theorem check_eq_error_iff {e : SchemaError} :
    schema.check types discriminant = .error e ↔ refused? types discriminant [] schema.walk = some e := by
  rw [← failure?_eq_some_iff, check, failure?_checkAt]

theorem check_eq_ok_iff_walk :
    schema.check types discriminant = .ok () ↔
      ∀ stop ∈ schema.walk, stop.2.refusal? types discriminant = none := by
  rw [← failure?_eq_none_iff, check, failure?_checkAt, Walk.report?_eq_none_iff]

theorem Refusal.error_inj {refusal refusal' : Refusal} {place place' : SchemaPath}
    (h : refusal.error place = refusal'.error place') : refusal = refusal' ∧ place = place' := by
  cases refusal <;> cases refusal' <;> simp_all [Refusal.error]

theorem refused?_of_check (h : schema.check types discriminant = .error (refusal.error place))
    (path : SchemaPath) :
    refused? types discriminant path schema.walk = some (refusal.error (path ++ place)) := by
  obtain ⟨before, place', stop, after, refusal', hwalk, hbefore, hstop, herror⟩ :=
    Walk.report?_eq_some_iff.mp (check_eq_error_iff.mp h)
  obtain ⟨rfl, rfl⟩ := Refusal.error_inj herror
  exact Walk.report?_eq_some_iff.mpr ⟨before, _, stop, after, _, hwalk, hbefore, hstop, rfl⟩

theorem fieldsWalk_append (earlier : List String) (before rest : List (String × Schema)) :
    fieldsWalk earlier (before ++ rest) =
      fieldsWalk earlier before ++ fieldsWalk ((before.map Prod.fst).reverse ++ earlier) rest := by
  induction before generalizing earlier with
  | nil => rfl
  | cons f before ih => simp [fieldsWalk, ih]

theorem variantsWalk_append (earlier : List String)
    (before rest : List (String × List (String × Schema))) :
    variantsWalk earlier (before ++ rest) =
      variantsWalk earlier before ++ variantsWalk ((before.map Prod.fst).reverse ++ earlier) rest := by
  induction before generalizing earlier with
  | nil => rfl
  | cons v before ih => simp [variantsWalk, ih]

theorem refused?_fieldsWalk {before : List (String × Schema)} {name : String}
    (hbefore : (record before).check types discriminant = .ok ()) (hname : name ∉ before.map Prod.fst)
    (h : schema.check types discriminant = .error (refusal.error place)) (path : SchemaPath)
    (after : List (String × Schema)) :
    refused? types discriminant path (fieldsWalk [] (before ++ (name, schema) :: after)) =
      some (refusal.error (path ++ name :: place)) := by
  rw [check_eq_ok_iff_walk, walk, List.forall_mem_cons] at hbefore
  have hfront : refused? types discriminant path (fieldsWalk [] before) = none :=
    Walk.report?_eq_none_iff.mpr hbefore.2
  have hfresh : Stop.refusal? types discriminant
      (.field (before.map Prod.fst).reverse name) = none := by
    simp [Stop.refusal?, hname]
  have hpart := refused?_of_check h (path ++ [name])
  rw [List.append_assoc, List.singleton_append] at hpart
  simp [fieldsWalk_append, fieldsWalk, hfront, hfresh, hpart]

theorem refusal?_body_of_not_mem (types : Extensions) {fields : List (String × Schema)}
    (h : discriminant ∉ fields.map Prod.fst) :
    Stop.refusal? types discriminant (.body fields) = none := by
  have hnone : fields.any (fun f => f.1 == discriminant) = false := by
    rw [List.any_eq_false]
    intro f hf hname
    rw [← eq_of_beq hname] at h
    exact h (List.mem_map_of_mem hf)
  rw [Stop.refusal?, hnone, if_neg Bool.false_ne_true]

theorem refused?_variantsWalk {before : List (String × List (String × Schema))} {tag : String}
    {fields : List (String × Schema)} {e : SchemaError}
    (hbefore : before = [] ∨ (union before).check types discriminant = .ok ())
    (htag : tag ∉ before.map Prod.fst)
    (h : refused? types discriminant [tag] (([], .body fields) :: fieldsWalk [] fields) = some e)
    (after : List (String × List (String × Schema))) :
    refused? types discriminant [] (variantsWalk [] (before ++ (tag, fields) :: after)) = some e := by
  have hfront : refused? types discriminant [] (variantsWalk [] before) = none := by
    rcases hbefore with rfl | hbefore
    · rfl
    · rw [check_eq_ok_iff_walk, walk, List.forall_mem_cons] at hbefore
      exact Walk.report?_eq_none_iff.mpr hbefore.2
  have hfresh : Stop.refusal? types discriminant
      (.variant (before.map Prod.fst).reverse tag) = none := by
    simp [Stop.refusal?, htag]
  rw [refused?] at hfront h
  rw [refused?, variantsWalk_append, List.append_nil, variantsWalk, Walk.report?_append,
    Walk.report?_cons, Walk.report?_append, Walk.report?_inside, hfront, hfresh, List.nil_append [tag], h]
  rfl

/-- What stands right around a part of a schema. -/
inductive Frame where
  | optional
  | array (count : CountWidth)
  | field (before : List (String × Schema)) (name : String) (after : List (String × Schema))
  | variant (before : List (String × List (String × Schema))) (tag : String)
      (fieldsBefore : List (String × Schema)) (name : String) (fieldsAfter : List (String × Schema))
      (after : List (String × List (String × Schema)))

namespace Frame

def fill : Frame → Schema → Schema
  | optional, inner => .optional inner
  | array count, element => .array count element
  | field before name after, schema => .record (before ++ (name, schema) :: after)
  | variant before tag fieldsBefore name fieldsAfter after, schema =>
    .union (before ++ (tag, fieldsBefore ++ (name, schema) :: fieldsAfter) :: after)

def way : Frame → SchemaPath
  | optional => []
  | array _ => ["elements"]
  | field _ name _ => [name]
  | variant _ tag _ name _ _ => [tag, name]

/-- All that is checked before the part is in order. -/
def InOrder (types : Extensions) (discriminant : String) : Frame → Schema → Prop
  | optional, inner => inner.isOptional = false
  | array _, _ => True
  | field before name _, _ =>
    (record before).check types discriminant = .ok () ∧ name ∉ before.map Prod.fst
  | variant before tag fieldsBefore name fieldsAfter after, _ =>
    (before = [] ∨ (union before).check types discriminant = .ok ()) ∧
      before.length + after.length < 256 ∧ tag ∉ before.map Prod.fst ∧
      discriminant ∉ (fieldsBefore.map Prod.fst ++ name :: fieldsAfter.map Prod.fst) ∧
      (record fieldsBefore).check types discriminant = .ok () ∧ name ∉ fieldsBefore.map Prod.fst

/-- A part that is refused is what the whole is refused for, with the way to it in front of the place. -/
theorem check_fill {frame : Frame} (hframe : frame.InOrder types discriminant schema)
    (h : schema.check types discriminant = .error (refusal.error place)) :
    (frame.fill schema).check types discriminant = .error (refusal.error (frame.way ++ place)) := by
  rw [check_eq_error_iff]
  cases frame with
  | optional =>
    have hinner : schema.isOptional = false := hframe
    have hpart := refused?_of_check h []
    simp [fill, walk, way, Stop.refusal?, hinner, hpart]
  | array count =>
    have hpart := refused?_of_check h ["elements"]
    simp [fill, walk, way, Stop.refusal?, hpart]
  | field before name after =>
    obtain ⟨hbefore, hname⟩ := hframe
    have hpart := refused?_fieldsWalk hbefore hname h [] after
    simp [fill, walk, way, Stop.refusal?, hpart]
  | variant before tag fieldsBefore name fieldsAfter after =>
    obtain ⟨hbefore, hfew, htag, hdiscriminant, hfields, hname⟩ := hframe
    have hbody : Stop.refusal? types discriminant
        (.body (fieldsBefore ++ (name, schema) :: fieldsAfter)) = none :=
      refusal?_body_of_not_mem types (by simpa using hdiscriminant)
    have hpart : refused? types discriminant [tag]
        (([], .body (fieldsBefore ++ (name, schema) :: fieldsAfter)) ::
          fieldsWalk [] (fieldsBefore ++ (name, schema) :: fieldsAfter)) =
        some (refusal.error (tag :: name :: place)) := by
      rw [refused?, Walk.report?_cons, hbody]
      exact refused?_fieldsWalk hfields hname h [tag] fieldsAfter
    have hcount : ¬256 < before.length + (after.length + 1) := by omega
    have hvariants := refused?_variantsWalk hbefore htag hpart after
    simp [fill, walk, way, Stop.refusal?, maxVariants, hcount, hvariants]

end Frame

section

variable (types : Extensions) (discriminant : String)

def refuseOnWay (violation : Violation) : OnWay Unit := OnWay.here fun path => .error (.invalid violation path)

mutual

/-- `checkAt` as a program that goes into the parts and comes back. -/
def checkOnWay : Schema → OnWay Unit
  | .scalar _ => pure ()
  | .custom name => OnWay.here fun path =>
    if types.contains name then .ok () else .error (.unknownCustom name (some path))
  | .enum labels => OnWay.here fun path => accept path (enumViolation? .enum labels)
  | .numberEnum labels => OnWay.here fun path =>
    accept path (enumViolation? .numberEnum (labels.map fun l => (toString l.1.toInt, l.2)))
  | .bitmask flags => OnWay.here fun path => accept path (bitmaskViolation? flags)
  | .optional inner => if inner.isOptional then refuseOnWay .nestedOptional else checkOnWay inner
  | .array _ element => OnWay.into "elements" (checkOnWay element)
  | .union variants =>
    if variants.isEmpty then refuseOnWay .noVariants
    else if maxVariants < variants.length then refuseOnWay (.tooManyVariants variants.length)
    else checkVariantsOnWay [] variants
  | .record fields => checkFieldsOnWay [] fields

def checkFieldsOnWay (names : List String) : List (String × Schema) → OnWay Unit
  | [] => pure ()
  | (name, schema) :: rest =>
    if names.contains name then refuseOnWay (.duplicateField name)
    else do
      OnWay.into name (checkOnWay schema)
      checkFieldsOnWay (name :: names) rest

def checkVariantsOnWay (tags : List String) : List (String × List (String × Schema)) → OnWay Unit
  | [] => pure ()
  | (tag, fields) :: rest =>
    if tags.contains tag then refuseOnWay (.duplicateTag tag)
    else do
      OnWay.into tag
        (if fields.any fun f => f.1 == discriminant then refuseOnWay (.discriminantField discriminant)
        else checkFieldsOnWay [] fields)
      checkVariantsOnWay (tag :: tags) rest

end

theorem returns_refuseOnWay (violation : Violation) :
    (refuseOnWay violation).Returns fun path => .error (.invalid violation path) :=
  (OnWay.keeps_here _).returns

mutual

theorem returns_checkOnWay : ∀ schema : Schema,
    (checkOnWay types discriminant schema).Returns (checkAt types discriminant · schema)
  | .scalar _ => (OnWay.keeps_pure ()).returns
  | .custom _ => (OnWay.keeps_here _).returns
  | .enum _ => (OnWay.keeps_here _).returns
  | .numberEnum _ => (OnWay.keeps_here _).returns
  | .bitmask _ => (OnWay.keeps_here _).returns
  | .optional inner => by
    simp only [checkOnWay, checkAt]
    exact OnWay.returns_ite (returns_refuseOnWay _) (returns_checkOnWay inner)
  | .array _ element => by
    simp only [checkOnWay, checkAt]
    exact (returns_checkOnWay element).into "elements"
  | .union variants => by
    simp only [checkOnWay, checkAt]
    exact OnWay.returns_ite (returns_refuseOnWay _)
      (OnWay.returns_ite (returns_refuseOnWay _) (returns_checkVariantsOnWay [] variants))
  | .record fields => by
    simp only [checkOnWay, checkAt]
    exact returns_checkFieldsOnWay [] fields

theorem returns_checkFieldsOnWay : ∀ (names : List String) (fields : List (String × Schema)),
    (checkFieldsOnWay types discriminant names fields).Returns
      (checkFields types discriminant · names fields)
  | _, [] => (OnWay.keeps_pure ()).returns
  | names, (name, schema) :: rest => by
    simp only [checkFieldsOnWay, checkFields]
    refine OnWay.returns_ite (returns_refuseOnWay _) ?_
    exact ((returns_checkOnWay schema).into name).bind fun _ =>
      returns_checkFieldsOnWay (name :: names) rest

theorem returns_checkVariantsOnWay : ∀ (tags : List String)
    (variants : List (String × List (String × Schema))),
    (checkVariantsOnWay types discriminant tags variants).Returns
      (checkVariants types discriminant · tags variants)
  | _, [] => (OnWay.keeps_pure ()).returns
  | tags, (tag, fields) :: rest => by
    have hbody := (OnWay.returns_ite (c := (fields.any fun f => f.1 == discriminant) = true)
      (returns_refuseOnWay (.discriminantField discriminant))
      (returns_checkFieldsOnWay [] fields)).into tag
    have hrest := hbody.bind fun _ => returns_checkVariantsOnWay (tag :: tags) rest
    simp only [checkVariantsOnWay, checkVariants]
    refine OnWay.returns_ite (returns_refuseOnWay _) fun path => ?_
    -- the name of the discriminant is looked for inside the variant, in front of its fields
    have hpath := hrest path
    by_cases h : (fields.any fun f => f.1 == discriminant) = true
    · simp only [if_pos h] at hpath ⊢
      exact hpath
    · simp only [if_neg h] at hpath ⊢
      exact hpath

end

end

/-- A schema is refused for the first thing wrong on a walk through it in the order of declarations. -/
theorem check_error_located (types : Extensions) (discriminant : String) (schema : Schema) :
    (∀ e, schema.check types discriminant = .error e ↔ ∃ before place stop after refusal,
      schema.walk = before ++ (place, stop) :: after ∧
      (∀ b ∈ before, b.2.refusal? types discriminant = none) ∧
      stop.refusal? types discriminant = some refusal ∧ e = refusal.error place) ∧
    (∀ (refusal : Refusal) (place : SchemaPath), (refusal.error place).message =
      refusal.message (if place = [] then "<root>" else ".".intercalate place)) ∧
    (∀ (frame : Frame) (refusal : Refusal) (place : SchemaPath), frame.InOrder types discriminant schema →
      schema.check types discriminant = .error (refusal.error place) →
      (frame.fill schema).check types discriminant = .error (refusal.error (frame.way ++ place))) ∧
    (checkOnWay types discriminant schema).Returns (checkAt types discriminant · schema) := by
  refine ⟨fun e => ?_, ?_, fun frame refusal place => Frame.check_fill, ?_⟩
  · exact check_eq_error_iff.trans Walk.report?_eq_some_iff
  · intro refusal place
    cases refusal <;> cases place <;> rfl
  · exact returns_checkOnWay types discriminant schema

end

def aroundItems : Frame := .field [("id", .scalar .uint8)] "items" [("id", .bitmask [])]

/-- The items have a position of a type that nobody knows. -/
theorem check_error_located_items :
    aroundItems.InOrder ∅ "type" (.array .one (.record [("pos", .custom "hexId")])) ∧
    (aroundItems.fill (.array .one (.record [("pos", .custom "hexId")]))).check ∅ "type" =
      .error (.unknownCustom "hexId" (some ["items", "elements", "pos"])) ∧
    (SchemaError.unknownCustom "hexId" (some ["items", "elements", "pos"])).message =
      "Unknown custom type: hexId (at 'items.elements.pos')" := by
  have horder : aroundItems.InOrder ∅ "type" (.array .one (.record [("pos", .custom "hexId")])) :=
    ⟨rfl, by decide⟩
  obtain ⟨-, hmessage, hframe, -⟩ :=
    check_error_located ∅ "type" (.array .one (.record [("pos", .custom "hexId")]))
  refine ⟨horder, hframe aroundItems (.unknownCustom "hexId") ["elements", "pos"] horder rfl, ?_⟩
  exact hmessage (.unknownCustom "hexId") ["items", "elements", "pos"]

end Schema

end WireSchema
