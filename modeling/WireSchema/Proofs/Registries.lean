import WireSchema.Proofs.Sizing

/-! A codec keeps the extensions that stand for a leaf of its schema, each once. With them alone the
schema has the same codec again, and without any one of them it has another layout or none. -/

namespace WireSchema

section

variable {α : Type} [LinearOrder α]

private theorem mem_eraseRepsLoop_iff {b : α} : ∀ {as : List α} {a : α} {acc : List α},
    b ∈ List.eraseRepsBy.loop (· == ·) a as acc ↔ (b = a ∨ b ∈ as) ∨ b ∈ acc
  | [], a, acc => by
    rw [List.eraseRepsBy.loop, List.mem_reverse, List.mem_cons]
    simp
  | a' :: as, a, acc => by
    rw [List.eraseRepsBy.loop]
    by_cases h : a = a'
    · simp [h, mem_eraseRepsLoop_iff]
    · simp only [beq_false_of_ne h, mem_eraseRepsLoop_iff, List.mem_cons]
      tauto

theorem mem_eraseReps_iff {b : α} {as : List α} : b ∈ as.eraseReps ↔ b ∈ as := by
  cases as with
  | nil => rfl
  | cons a as =>
    rw [List.eraseReps, List.eraseRepsBy, mem_eraseRepsLoop_iff, List.mem_cons]
    simp

/-- What has been kept so far stands in reverse and below everything that is to come. -/
private theorem pairwise_eraseRepsLoop : ∀ {as : List α} {a : α} {acc : List α},
    (a :: as).Pairwise (· ≤ ·) → (a :: acc).Pairwise (· > ·) →
    (List.eraseRepsBy.loop (· == ·) a as acc).Pairwise (· < ·)
  | [], a, acc, _, hacc => by
    rw [List.eraseRepsBy.loop]
    exact List.pairwise_reverse.mpr hacc
  | a' :: as, a, acc, has, hacc => by
    rw [List.pairwise_cons] at has
    have hle : a ≤ a' := has.1 a' List.mem_cons_self
    rw [List.eraseRepsBy.loop]
    by_cases h : a = a'
    · subst h
      simpa using pairwise_eraseRepsLoop has.2 hacc
    · have hlt : a < a' := lt_of_le_of_ne hle h
      rw [beq_false_of_ne h]
      refine pairwise_eraseRepsLoop has.2 (List.pairwise_cons.mpr ⟨?_, hacc⟩)
      rintro b (_ | ⟨_, hb⟩)
      · exact hlt
      · exact lt_trans ((List.pairwise_cons.mp hacc).1 b hb) hlt

theorem pairwise_eraseReps {as : List α} (h : as.Pairwise (· ≤ ·)) : as.eraseReps.Pairwise (· < ·) := by
  cases as with
  | nil => exact .nil
  | cons a as => exact pairwise_eraseRepsLoop h (List.pairwise_singleton _ a)

end

namespace Layout

theorem mem_dependencies_iff {layout : Layout} {name : String} :
    name ∈ layout.dependencies ↔ name ∈ layout.extensionNames := by
  rw [dependencies, mem_eraseReps_iff, List.mem_mergeSort]

theorem pairwise_dependencies (layout : Layout) : layout.dependencies.Pairwise (· < ·) :=
  pairwise_eraseReps (List.pairwise_mergeSort' (· ≤ ·) layout.extensionNames)

end Layout

namespace Extensions

variable {types types' : Extensions} {names : List String} {name : String}

def erase (types : Extensions) (name : String) : Extensions :=
  ⟨types.entries.filter fun b => b.1 != name⟩

theorem not_mem_names_erase : name ∉ (types.erase name).names := by
  simp [names, erase]

theorem mem_names_iff : name ∈ types.names ↔ ∃ e, types.get? name = some e :=
  Assoc.isSome_lookup_iff.symm.trans Option.isSome_iff_exists

private def bindings (types : Extensions) (names : List String) : List (String × Extension) :=
  names.filterMap fun name => (types.get? name).map (name, ·)

private theorem keys_bindings (types : Extensions) (names : List String) :
    (types.bindings names).map Prod.fst = names.filter types.contains := by
  rw [bindings, List.map_filterMap, ← List.filterMap_eq_filter]
  refine List.filterMap_congr fun name _ => ?_
  change ((types.get? name).map (name, ·)).map Prod.fst =
    if (types.get? name).isSome = true then some name else none
  cases types.get? name <;> rfl

private theorem entries_restrict (h : names.Nodup) :
    (types.restrict names).entries = types.bindings names :=
  Assoc.ofList_of_nodup (keys_bindings types names ▸ h.filter _)

theorem names_restrict (h : names.Nodup) :
    (types.restrict names).names = names.filter types.contains := by
  rw [Extensions.names, entries_restrict h, keys_bindings]

theorem get?_restrict_of_mem (h : names.Nodup) (hname : name ∈ names) :
    (types.restrict names).get? name = types.get? name := by
  have hnodup : (types.restrict names).names.Nodup := names_restrict h ▸ h.filter _
  apply Option.ext
  intro e
  rw [get?, Assoc.lookup_eq_some_iff_mem hnodup, entries_restrict h, bindings, List.mem_filterMap]
  constructor
  · rintro ⟨name', -, he⟩
    obtain ⟨e', he', heq⟩ := Option.map_eq_some_iff.mp he
    cases heq
    exact he'
  · exact fun he => ⟨name, hname, Option.map_eq_some_iff.mpr ⟨e, he, rfl⟩⟩

theorem restrict_congr (h : ∀ name ∈ names, types'.get? name = types.get? name) :
    types'.restrict names = types.restrict names := by
  have hbindings : types'.bindings names = types.bindings names :=
    List.filterMap_congr fun name hname => by rw [h name hname]
  exact congrArg (fun bindings => Extensions.mk (Assoc.ofList bindings)) hbindings

end Extensions

namespace Schema

/-- A leaf of a name that is left to an extension: a custom type, or a scalar type if its name is
registered. -/
def IsCustomLeaf (types : Extensions) (name : String) : Schema → Prop
  | .custom name' => name' = name
  | .scalar type => type.name = name ∧ name ∈ types.names
  | _ => False

def HasLeaf (schema : Schema) (name : String) : Prop :=
  ∃ node, Relation.ReflTransGen Child node schema ∧ node.leafName? = some name

theorem isCustomLeaf_iff {types : Extensions} {discriminant name : String} : ∀ {node : Schema},
    node.KeepsRules types discriminant →
    (node.IsCustomLeaf types name ↔ node.leafName? = some name ∧ name ∈ types.names)
  | .custom _, h => by
    rw [IsCustomLeaf, leafName?, Option.some_inj, iff_self_and]
    rintro rfl
    exact h
  | .scalar _, _ => by rw [IsCustomLeaf, leafName?, Option.some_inj]
  | .enum _, _ | .numberEnum _, _ | .bitmask _, _ | .optional _, _ | .array _ _, _ | .union _, _
  | .record _, _ => iff_of_false id fun h => nomatch h.1

end Schema

namespace Layout

open Schema

variable {types types' : Extensions} {discriminant : String} {name : String}

private theorem not_mem_registered_iff {name' : String} {e : Extension}
    (he : types.get? name' = some e) : name ∉ [name'] ↔ ¬(name' = name ∧ name ∈ types.names) := by
  rw [List.mem_singleton, eq_comm]
  refine not_congr (iff_self_and.mpr ?_)
  rintro rfl
  exact Extensions.mem_names_iff.mpr ⟨e, he⟩

mutual

theorem not_mem_extensionNames_iff : ∀ {schema : Schema} {layout : Layout},
    ofSchema types discriminant schema = .ok layout →
    (name ∉ layout.extensionNames ↔
      schema.Everywhere fun node => ¬(node.leafName? = some name ∧ name ∈ types.names))
  | .scalar type, layout, h => by
    rw [everywhere_leaf_iff (by rintro _ ⟨⟩)]
    rw [ofSchema] at h
    rw [leafName?, Option.some_inj]
    split at h
    · rename_i e he
      cases h
      exact not_mem_registered_iff he
    · rename_i hnone
      cases h
      refine iff_of_true List.not_mem_nil ?_
      rintro ⟨rfl, hmem⟩
      obtain ⟨e, he⟩ := Extensions.mem_names_iff.mp hmem
      rw [hnone] at he
      cases he
  | .custom name', layout, h => by
    rw [everywhere_leaf_iff (by rintro _ ⟨⟩)]
    rw [ofSchema] at h
    rw [leafName?, Option.some_inj]
    split at h
    · rename_i e he
      cases h
      exact not_mem_registered_iff he
    · cases h
  | .enum _, _, h | .numberEnum _, _, h | .bitmask _, _, h => by
    cases h
    rw [everywhere_leaf_iff (by rintro _ ⟨⟩)]
    exact iff_of_true List.not_mem_nil fun hleaf => nomatch hleaf.1
  | .optional inner, layout, h => by
    obtain ⟨layout, hlayout, rfl⟩ := map_eq_ok_iff.mp h
    rw [everywhere_optional_iff, ← not_mem_extensionNames_iff hlayout]
    exact (and_iff_right fun hleaf => nomatch hleaf.1).symm
  | .array count element, layout, h => by
    obtain ⟨layout, hlayout, rfl⟩ := map_eq_ok_iff.mp h
    rw [everywhere_array_iff, ← not_mem_extensionNames_iff hlayout]
    exact (and_iff_right fun hleaf => nomatch hleaf.1).symm
  | .union variants, layout, h => by
    obtain ⟨layouts, hlayouts, h⟩ := bind_eq_ok_iff.mp h
    cases h
    rw [everywhere_union_iff, ← not_mem_variantsExtensionNames_iff hlayouts]
    exact (and_iff_right fun hleaf => nomatch hleaf.1).symm
  | .record fields, layout, h => by
    obtain ⟨layouts, hlayouts, rfl⟩ := map_eq_ok_iff.mp h
    rw [everywhere_record_iff, ← not_mem_fieldsExtensionNames_iff hlayouts]
    exact (and_iff_right fun hleaf => nomatch hleaf.1).symm

theorem not_mem_fieldsExtensionNames_iff : ∀ {fields : List (String × Schema)}
    {layouts : List (String × Layout)}, ofFields types discriminant fields = .ok layouts →
    (name ∉ fieldsExtensionNames layouts ↔ ∀ f ∈ fields,
      f.2.Everywhere fun node => ¬(node.leafName? = some name ∧ name ∈ types.names))
  | [], _, h => by
    cases h
    exact iff_of_true List.not_mem_nil (List.forall_mem_nil _)
  | (_, schema) :: rest, _, h => by
    obtain ⟨layout, hlayout, h⟩ := bind_eq_ok_iff.mp h
    obtain ⟨layouts, hlayouts, h⟩ := bind_eq_ok_iff.mp h
    cases h
    rw [List.forall_mem_cons, ← not_mem_extensionNames_iff hlayout,
      ← not_mem_fieldsExtensionNames_iff hlayouts, fieldsExtensionNames, List.mem_append, not_or]

theorem not_mem_variantsExtensionNames_iff : ∀ {place : Nat}
    {variants : List (String × List (String × Schema))}
    {layouts : List (VariantKey × List (String × Layout))},
    ofVariants types discriminant place variants = .ok layouts →
    (name ∉ variantsExtensionNames layouts ↔ ∀ v ∈ variants, ∀ f ∈ v.2,
      f.2.Everywhere fun node => ¬(node.leafName? = some name ∧ name ∈ types.names))
  | _, [], _, h => by
    cases h
    exact iff_of_true List.not_mem_nil (List.forall_mem_nil _)
  | _, (_, fields) :: rest, _, h => by
    obtain ⟨layout, hlayout, h⟩ := bind_eq_ok_iff.mp h
    obtain ⟨layouts, hlayouts, h⟩ := bind_eq_ok_iff.mp h
    cases h
    rw [List.forall_mem_cons, ← not_mem_fieldsExtensionNames_iff hlayout,
      ← not_mem_variantsExtensionNames_iff hlayouts, variantsExtensionNames, List.mem_append, not_or]

end

theorem mem_extensionNames_iff {schema : Schema} {layout : Layout}
    (h : ofSchema types discriminant schema = .ok layout) :
    name ∈ layout.extensionNames ↔ schema.HasLeaf name ∧ name ∈ types.names := by
  rw [← not_not (a := name ∈ layout.extensionNames), not_mem_extensionNames_iff h]
  simp only [Everywhere, HasLeaf, not_forall, not_not, exists_prop, ← and_assoc,
    exists_and_right]

mutual

theorem ofSchema_congr : ∀ {schema : Schema}, (schema.Everywhere fun node =>
      ∀ name, node.leafName? = some name → types'.get? name = types.get? name) →
    ofSchema types' discriminant schema = ofSchema types discriminant schema
  | .scalar type, h => by rw [ofSchema, ofSchema, h _ .refl type.name rfl]
  | .custom name, h => by rw [ofSchema, ofSchema, h _ .refl name rfl]
  | .enum _, _ | .numberEnum _, _ | .bitmask _, _ => rfl
  | .optional _, h => by rw [ofSchema, ofSchema, ofSchema_congr (everywhere_optional_iff.mp h).2]
  | .array _ _, h => by rw [ofSchema, ofSchema, ofSchema_congr (everywhere_array_iff.mp h).2]
  | .union _, h => by rw [ofSchema, ofSchema, ofVariants_congr (everywhere_union_iff.mp h).2]
  | .record _, h => by rw [ofSchema, ofSchema, ofFields_congr (everywhere_record_iff.mp h).2]

theorem ofFields_congr : ∀ {fields : List (String × Schema)},
    (∀ f ∈ fields, f.2.Everywhere fun node =>
      ∀ name, node.leafName? = some name → types'.get? name = types.get? name) →
    ofFields types' discriminant fields = ofFields types discriminant fields
  | [], _ => rfl
  | (_, schema) :: rest, h => by
    rw [List.forall_mem_cons] at h
    rw [ofFields, ofFields, ofSchema_congr h.1, ofFields_congr h.2]

theorem ofVariants_congr : ∀ {place : Nat} {variants : List (String × List (String × Schema))},
    (∀ v ∈ variants, ∀ f ∈ v.2, f.2.Everywhere fun node =>
      ∀ name, node.leafName? = some name → types'.get? name = types.get? name) →
    ofVariants types' discriminant place variants = ofVariants types discriminant place variants
  | _, [], _ => rfl
  | _, (_, fields) :: rest, h => by
    rw [List.forall_mem_cons] at h
    rw [ofVariants, ofVariants, ofFields_congr h.1, ofVariants_congr h.2]

end

end Layout

namespace Schema

variable {types types' : Extensions} {discriminant : String} {schema : Schema}

/-- The rules ask no more of a registry than which names of leaves it binds. -/
theorem WellFormed.congr (hwell : schema.WellFormed types discriminant)
    (h : ∀ name, schema.HasLeaf name → types'.get? name = types.get? name) :
    schema.WellFormed types' discriminant := by
  intro node hnode
  have hkeeps := hwell node hnode
  cases node with
  | custom name =>
    have hget := h name ⟨_, hnode, rfl⟩
    rw [KeepsRules, Extensions.mem_names_iff] at hkeeps ⊢
    exact hget ▸ hkeeps
  | _ => exact hkeeps

end Schema

namespace Codec

open Schema

variable {types types' : Extensions} {discriminant : String} {schema : Schema} {c : Codec}

theorem ofSchema_congr (h : ofSchema types discriminant schema = .ok c)
    (hagree : ∀ name, schema.HasLeaf name → types'.get? name = types.get? name) :
    ofSchema types' discriminant schema = .ok c := by
  obtain ⟨hwell, layout, hlayout, rfl⟩ := ofSchema_eq_ok_iff.mp h
  refine ofSchema_eq_ok_iff.mpr ⟨hwell.congr hagree, layout, ?_, ?_⟩
  · rw [← hlayout]
    exact Layout.ofSchema_congr fun node hnode name hname => hagree name ⟨node, hnode, hname⟩
  · rw [ofLayout, ofLayout, Extensions.restrict_congr]
    intro name hname
    rw [Layout.mem_dependencies_iff, Layout.mem_extensionNames_iff hlayout] at hname
    exact (hagree name hname.1).symm

theorem names_types (h : ofSchema types discriminant schema = .ok c) :
    c.types.names = c.layout.dependencies := by
  obtain ⟨-, layout, hlayout, rfl⟩ := ofSchema_eq_ok_iff.mp h
  refine (Extensions.names_restrict (Layout.pairwise_dependencies layout).nodup).trans ?_
  refine List.filter_eq_self.mpr fun name hname => ?_
  rw [Layout.mem_dependencies_iff, Layout.mem_extensionNames_iff hlayout] at hname
  exact contains_eq_true_iff.mpr hname.2

theorem get?_types (h : ofSchema types discriminant schema = .ok c) {name : String}
    (hname : name ∈ c.types.names) : c.types.get? name = types.get? name := by
  rw [names_types h] at hname
  obtain ⟨-, layout, hlayout, rfl⟩ := ofSchema_eq_ok_iff.mp h
  exact Extensions.get?_restrict_of_mem (Layout.pairwise_dependencies layout).nodup hname

theorem mem_names_types_iff (h : ofSchema types discriminant schema = .ok c) {name : String} :
    name ∈ c.types.names ↔ schema.HasLeaf name ∧ name ∈ types.names := by
  rw [names_types h, Layout.mem_dependencies_iff]
  obtain ⟨-, layout, hlayout, rfl⟩ := ofSchema_eq_ok_iff.mp h
  exact Layout.mem_extensionNames_iff hlayout

theorem ofSchema_types (h : ofSchema types discriminant schema = .ok c) :
    ofSchema c.types discriminant schema = .ok c := by
  refine ofSchema_congr h fun name hleaf => ?_
  by_cases hname : name ∈ c.types.names
  · exact get?_types h hname
  · -- A leaf whose name is not held is not registered either.
    have hfree : name ∉ types.names := fun hmem => hname ((mem_names_types_iff h).mpr ⟨hleaf, hmem⟩)
    rw [Extensions.mem_names_iff, not_exists, ← Option.eq_none_iff_forall_ne_some] at hname hfree
    rw [hname, hfree]

/-- The extensions that a codec holds have, in increasing order, the names of the leaves that are left to
an extension, and are those of the registry. The schema has the same codec under them alone; under what is
left without one of them it has not the same layout; and under any registry that agrees on the names of
its leaves it has the same codec. -/
theorem extensions_sufficient_and_minimal (h : ofSchema types discriminant schema = .ok c) :
    c.types.names.Pairwise (· < ·) ∧
      (∀ name, name ∈ c.types.names ↔
        ∃ node, Relation.ReflTransGen Child node schema ∧ node.IsCustomLeaf types name) ∧
      (∀ name ∈ c.types.names, ∃ e, types.get? name = some e ∧ c.types.get? name = some e) ∧
      ofSchema c.types discriminant schema = .ok c ∧
      (∀ name ∈ c.types.names,
        Layout.ofSchema (c.types.erase name) discriminant schema ≠ .ok c.layout) ∧
      ∀ types', (∀ name, schema.HasLeaf name → types'.get? name = types.get? name) →
        ofSchema types' discriminant schema = .ok c := by
  have hwell := (ofSchema_eq_ok_iff.mp h).1
  have hnames := @mem_names_types_iff _ _ _ _ h
  refine ⟨?_, fun name => ?_, fun name hname => ?_, ofSchema_types h, fun name hname herase => ?_,
    fun types' => ofSchema_congr h⟩
  · rw [names_types h]
    exact c.layout.pairwise_dependencies
  · rw [hnames]
    constructor
    · rintro ⟨⟨node, hnode, hleaf⟩, hname⟩
      exact ⟨node, hnode, (isCustomLeaf_iff (hwell node hnode)).mpr ⟨hleaf, hname⟩⟩
    · rintro ⟨node, hnode, hcustom⟩
      obtain ⟨hleaf, hname⟩ := (isCustomLeaf_iff (hwell node hnode)).mp hcustom
      exact ⟨⟨node, hnode, hleaf⟩, hname⟩
  · obtain ⟨e, he⟩ := Extensions.mem_names_iff.mp (hnames.mp hname).2
    exact ⟨e, he, (get?_types h hname).trans he⟩
  · rw [names_types h, Layout.mem_dependencies_iff, Layout.mem_extensionNames_iff herase] at hname
    exact Extensions.not_mem_names_erase hname.2

private def port : Extension := Scalar.uint16.asExtension

private def portRegistry : Extensions :=
  ⟨[("string", Scalar.uint32.asExtension), ("date", Scalar.uint32.asExtension), ("port", port)]⟩

private def hostSchema : Schema :=
  .record [("name", .scalar .string),
    ("address", .union [("local", []), ("remote", [("ports", .array .one (.custom "port"))])]),
    ("fallback", .optional (.custom "port")), ("weight", .scalar .uint8)]

private def hostCodec : Codec where
  schema := hostSchema
  layout := .record [("name", .extension "string" Scalar.uint32.asExtension),
    ("address", .union "type"
      [(⟨"local", 0⟩, []), (⟨"remote", 1⟩, [("ports", .array .one (.extension "port" port))])]
      [("local", 0), ("remote", 1)]),
    ("fallback", .optional (.extension "port" port)), ("weight", .scalar .uint8)]
  types := ⟨[("port", port), ("string", Scalar.uint32.asExtension)]⟩

/-- The codec of a host holds two of three registered types, in the order of their names. -/
theorem extensions_sufficient_and_minimal_host :
    ofSchema portRegistry "type" hostSchema = .ok hostCodec ∧
      hostCodec.types.names = ["port", "string"] ∧
      ofSchema hostCodec.types "type" hostSchema = .ok hostCodec ∧
      Layout.ofSchema (hostCodec.types.erase "string") "type" hostSchema ≠ .ok hostCodec.layout := by
  have hsorted : (["string", "port", "port"].mergeSort fun a b => decide (a ≤ b)) =
      ["port", "port", "string"] := by
    simp [List.mergeSort, List.MergeSort.Internal.splitInTwo]
  have hnames : hostCodec.layout.dependencies = ["port", "string"] :=
    congrArg List.eraseReps hsorted
  have hvalid : hostSchema.check portRegistry "type" = .ok () := rfl
  have hcodec : ofSchema portRegistry "type" hostSchema = .ok hostCodec := by
    refine ofSchema_eq_ok_iff.mpr ⟨checkAt_eq_ok_iff.mp hvalid, hostCodec.layout, rfl, ?_⟩
    rw [ofLayout, hnames]
    rfl
  obtain ⟨-, -, -, hsame, hdropped, -⟩ := extensions_sufficient_and_minimal hcodec
  exact ⟨hcodec, rfl, hsame, hdropped "string" (by decide)⟩

end Codec

end WireSchema
