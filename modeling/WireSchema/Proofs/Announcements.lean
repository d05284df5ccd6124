import Mathlib.Algebra.Order.BigOperators.Group.List
import WireSchema.Proofs.Sizing

/-! An encoding is refused exactly if the leaves' errors do not add up to zero: errors in one direction
are always found, while too many bytes of one leaf may make up for too few of another. -/

namespace WireSchema

/-- A custom leaf in the course of writing: its type, its value and the writer that it finds. -/
structure CustomWrite where
  type : Extension
  value : Value
  writer : Writer

namespace CustomWrite

def appended (leaf : CustomWrite) : Int :=
  ((leaf.type.write leaf.value).run.run leaf.writer).2.position - leaf.writer.position

def Announces (leaf : CustomWrite) (n : Nat) : Prop := leaf.type.size leaf.value = .ok n

def IsExact (leaf : CustomWrite) : Prop := ∃ n, leaf.Announces n ∧ leaf.appended = n

/-- By how many bytes the leaf exceeds what it announces. -/
def excess (leaf : CustomWrite) : Int :=
  match leaf.type.size leaf.value with
  | .ok n => leaf.appended - n
  | .error _ => leaf.appended

theorem excess_of_announces {leaf : CustomWrite} {n : Nat} (h : leaf.Announces n) :
    leaf.excess = leaf.appended - n := by
  rw [excess, h]

theorem isExact_iff_excess {leaf : CustomWrite} {n : Nat} (h : leaf.Announces n) :
    leaf.IsExact ↔ leaf.excess = 0 := by
  rw [excess_of_announces h, Int.sub_eq_zero]
  constructor
  · rintro ⟨m, hm, happended⟩
    obtain rfl : n = m := Except.ok.inj (h.symm.trans hm)
    exact happended
  · intro happended
    exact ⟨n, h, happended⟩

end CustomWrite

def Write.after (m : Write Unit) (w : Writer) : Writer := (m.run.run w).2

namespace Layout

def itemsCustomWrites (write : Value → Write Unit) (leaves : Value → Writer → List CustomWrite) :
    List Value → Writer → List CustomWrite
  | [], _ => []
  | v :: rest, w => leaves v w ++ itemsCustomWrites write leaves rest ((write v).after w)

mutual

/-- The custom leaves of a value that is written, each with the writer as it stands when it is its turn. -/
def customWrites : Layout → Value → Writer → List CustomWrite
  | .extension _ e, v, w => [⟨e, v, w⟩]
  | .scalar _, _, _ | .enum _, _, _ | .numberEnum _, _, _ | .bitmask _, _, _ => []
  | .optional inner, v, w =>
    if v.isNull then [] else customWrites inner v ((Write.bool true).after w)
  | .array count element, v, w =>
    match v.expectItems count with
    | .ok items =>
      itemsCustomWrites (write element) (customWrites element) items
        ((writeCount count items.length).after w)
    | .error _ => []
  | .union discriminant variants indices, v, w =>
    match v.expectVariant discriminant indices with
    | .ok (index, fields) =>
      variantCustomWrites variants index.toNat fields ((Write.u8 index).after w)
    | .error _ => []
  | .record layouts, v, w =>
    match v.expect .record Value.fields? with
    | .ok fields => fieldsCustomWrites layouts fields w
    | .error _ => []

def fieldsCustomWrites : List (String × Layout) → List (String × Value) → Writer → List CustomWrite
  | [], _, _ => []
  | (name, layout) :: rest, fields, w =>
    customWrites layout (Value.field fields name) w ++
      fieldsCustomWrites rest fields ((write layout (Value.field fields name)).after w)

def variantCustomWrites : List (VariantKey × List (String × Layout)) → Nat → List (String × Value) →
    Writer → List CustomWrite
  | [], _, _, _ => []
  | (_, layouts) :: _, 0, fields, w => fieldsCustomWrites layouts fields w
  | _ :: rest, place + 1, fields, w => variantCustomWrites rest place fields w

end

end Layout

namespace Write

variable {m k : Write Unit} {w w' : Writer}

def Leads (m : Write Unit) (w w' : Writer) : Prop := (m.run.run w).1 = .ok () ∧ m.after w = w'

theorem leads_pure_iff : (pure () : Write Unit).Leads w w' ↔ w = w' :=
  ⟨fun h => h.2, fun h => ⟨rfl, h⟩⟩

theorem leads_bind_iff :
    (m >>= fun _ => k).Leads w w' ↔ ∃ middle, m.Leads w middle ∧ k.Leads middle w' := by
  unfold Leads after
  rw [run_bind]
  rcases m.run.run w with ⟨failure | _, middle⟩
  · simp
  · simp

theorem leads_ofExcept_bind_iff {α : Type} {r : Except Failure α} {k : α → Write Unit} :
    (ofExcept r >>= k).Leads w w' ↔ ∃ a, r = .ok a ∧ (k a).Leads w w' := by
  rw [ofExcept_bind]
  cases r with
  | error failure =>
    simp only [reduceCtorEq, false_and, exists_false, iff_false]
    exact fun h => nomatch h.1
  | ok a => simp only [Except.ok.injEq, exists_eq_left']

theorem leads_within_iff (step : Step) : (within step m).Leads w w' ↔ m.Leads w w' := by
  unfold Leads after
  rw [run_within, mapError_eq_ok_iff]

theorem not_leads_fail {failure : Failure} : ¬(fail failure : Write Unit).Leads w w' :=
  fun h => nomatch h.1

theorem Steady.position_of_leads (hm : m.Steady) (h : m.Leads w w') :
    ∃ out, m.output? = some out ∧ w'.position = w.position + out.length := by
  obtain ⟨hok, rfl⟩ := h
  rcases hm with ⟨out, happends⟩ | hfails
  · obtain ⟨w', hrun, hout⟩ := happends w
    refine ⟨out, happends.output?, ?_⟩
    have hlength := congrArg List.length hout
    rw [List.length_append] at hlength
    rw [after, hrun]
    exact hlength
  · obtain ⟨failure, w', hrun, -⟩ := hfails w
    rw [hrun] at hok
    cases hok

end Write

/-- The leaves all have a size, within `n`, and from one writer to the other there are `n` bytes and what the
leaves exceed their sizes by. -/
structure Accounts (leaves : List CustomWrite) (w : Writer) (n : Nat) (w' : Writer) : Prop where
  announces : ∀ leaf ∈ leaves, ∃ k ≤ n, leaf.Announces k
  position : (w'.position : Int) = w.position + n + (leaves.map CustomWrite.excess).sum

namespace Accounts

variable {leaves leaves' : List CustomWrite} {w w' w'' : Writer} {n n' : Nat}

theorem nil (h : w'.position = w.position + n) : Accounts [] w n w' where
  announces := fun _ hleaf => nomatch hleaf
  position := by rw [List.map_nil, List.sum_nil, h]; omega

theorem append (h : Accounts leaves w n w') (h' : Accounts leaves' w' n' w'') :
    Accounts (leaves ++ leaves') w (n + n') w'' where
  announces := by
    intro leaf hleaf
    rcases List.mem_append.mp hleaf with hleaf | hleaf
    · obtain ⟨k, hle, hk⟩ := h.announces leaf hleaf
      exact ⟨k, Nat.le_add_right_of_le hle, hk⟩
    · obtain ⟨k, hle, hk⟩ := h'.announces leaf hleaf
      exact ⟨k, Nat.le_add_left_of_le hle, hk⟩
  position := by
    rw [h'.position, h.position, List.map_append, List.sum_append]
    push_cast
    omega

end Accounts

namespace Layout

open Write

variable {w w' : Writer}

theorem accounts_of_steady {m : Write Unit} {n : Nat} (hm : m.Steady)
    (hn : ∀ out, m.output? = some out → out.length = n) (h : m.Leads w w') : Accounts [] w n w' := by
  obtain ⟨out, hout, hposition⟩ := hm.position_of_leads h
  exact .nil (hn out hout ▸ hposition)

theorem accounts_writeOrdinal {ordinal : Option UInt8} {unknown : Undeclared}
    (h : (writeOrdinal ordinal unknown).Leads w w') : Accounts [] w 1 w' := by
  apply accounts_of_steady (steady_writeOrdinal _ _) _ h
  intro out hout
  rw [output?_writeOrdinal] at hout
  obtain ⟨byte, -, rfl⟩ := Option.map_eq_some_iff.mp hout
  rfl

theorem accounts_flags {set : List Bool} (h : (Write.flags set).Leads w w') : Accounts [] w 1 w' := by
  apply accounts_of_steady (steady_flags set) _ h
  intro out hout
  rw [output?_flags] at hout
  obtain ⟨-, hout⟩ := Option.ite_none_right_eq_some.mp hout
  cases hout
  rfl

theorem accounts_writeCount {count : CountWidth} {k : Nat} (h : (writeCount count k).Leads w w') :
    Accounts [] w count.bytes w' := by
  apply accounts_of_steady (steady_writeCount _ _) _ h
  intro out hout
  cases count <;> cases hout <;> rfl

theorem accounts_u8 {byte : UInt8} (h : (u8 byte).Leads w w') : Accounts [] w 1 w' := by
  apply accounts_of_steady (steady_u8 byte) _ h
  intro out hout
  cases hout
  rfl

theorem accounts_scalar {type : Scalar} {v : Value} {n : Nat} (hn : (Layout.scalar type).size v = .ok n)
    (h : (type.write v).Leads w w') : Accounts [] w n w' := by
  apply accounts_of_steady (type.steady_write v) _ h
  intro out hout
  have hsize : (Layout.scalar type).size v = .ok out.length :=
    type.honest_asExtension.size_eq v out hout
  exact Except.ok.inj (hsize.symm.trans hn)

theorem accounts_items {write : Value → Write Unit} {leaves : Value → Writer → List CustomWrite}
    {size : Value → Except Failure Nat}
    (h : ∀ v n w w', size v = .ok n → (write v).Leads w w' → Accounts (leaves v w) w n w')
    {items : List Value} {index n : Nat} (hn : sumSizes size items = .ok n)
    (hw : (writeItems write index items).Leads w w') :
    Accounts (itemsCustomWrites write leaves items w) w n w' := by
  induction items generalizing index n w with
  | nil =>
    cases hn
    exact .nil (leads_pure_iff.mp hw ▸ rfl)
  | cons v rest ih =>
    obtain ⟨first, hfirst, hn⟩ := bind_eq_ok_iff.mp hn
    obtain ⟨others, hothers, hn⟩ := bind_eq_ok_iff.mp hn
    cases hn
    obtain ⟨middle, hitem, hrest⟩ := leads_bind_iff.mp hw
    rw [leads_within_iff] at hitem
    rw [itemsCustomWrites, hitem.2]
    exact (h _ _ _ _ hfirst hitem).append (ih hothers hrest)

theorem sumSizes_const (width : Nat) (items : List Value) :
    sumSizes (fun _ => .ok width) items = .ok (items.length * width) := by
  induction items with
  | nil => rw [sumSizes, List.length_nil, Nat.zero_mul]
  | cons v rest ih =>
    rw [sumSizes, ih, List.length_cons, Nat.succ_mul, Nat.add_comm]
    rfl

mutual

theorem accounts_of_fixedSize? : ∀ (layout : Layout) {v : Value} {n : Nat} {w w' : Writer},
    layout.fixedSize? = some n → (layout.write v).Leads w w' →
    Accounts (customWrites layout v w) w n w'
  | .scalar type, v, n, w, w', hn, hw => by
    apply accounts_scalar _ hw
    rw [fixedSize?] at hn
    rw [size, hn]
  | .enum _, _, _, _, _, hn, hw | .numberEnum _, _, _, _, _, hn, hw => by
    cases hn
    obtain ⟨label, -, hw⟩ := leads_ofExcept_bind_iff.mp hw
    exact accounts_writeOrdinal hw
  | .bitmask _, _, _, _, _, hn, hw => by
    cases hn
    obtain ⟨fields, -, hw⟩ := leads_ofExcept_bind_iff.mp hw
    obtain ⟨set, -, hw⟩ := leads_ofExcept_bind_iff.mp hw
    exact accounts_flags hw
  | .extension _ _, _, _, _, _, hn, _ | .optional _, _, _, _, _, hn, _
  | .array _ _, _, _, _, _, hn, _ => nomatch hn
  | .union discriminant variants indices, v, n, w, w', hn, hw => by
    obtain ⟨k, hk, rfl⟩ := Option.map_eq_some_iff.mp hn
    obtain ⟨⟨index, fields⟩, hexpect, hw⟩ := leads_ofExcept_bind_iff.mp hw
    obtain ⟨middle, hindex, hvariant⟩ := leads_bind_iff.mp hw
    rw [customWrites, hexpect]
    change Accounts (variantCustomWrites variants index.toNat fields ((u8 index).after w)) _ _ _
    rw [hindex.2]
    exact (accounts_u8 hindex).append
      (accounts_of_fixedVariantSizes variants (commonSize?_eq_some hk) hvariant)
  | .record layouts, v, n, w, w', hn, hw => by
    obtain ⟨fields, hexpect, hw⟩ := leads_ofExcept_bind_iff.mp hw
    rw [customWrites, hexpect]
    exact accounts_of_fixedFieldsSize? layouts hn hw

theorem accounts_of_fixedFieldsSize? : ∀ (layouts : List (String × Layout))
    {fields : List (String × Value)} {n : Nat} {w w' : Writer},
    fixedFieldsSize? layouts = some n → (writeFields layouts fields).Leads w w' →
    Accounts (fieldsCustomWrites layouts fields w) w n w'
  | [], _, _, _, _, hn, hw => by
    cases hn
    exact .nil (leads_pure_iff.mp hw ▸ rfl)
  | (name, layout) :: rest, fields, n, w, w', hn, hw => by
    obtain ⟨first, hfirst, hn⟩ := Option.bind_eq_some_iff.mp hn
    obtain ⟨others, hothers, hn⟩ := Option.bind_eq_some_iff.mp hn
    cases hn
    obtain ⟨middle, hfield, hrest⟩ := leads_bind_iff.mp hw
    rw [leads_within_iff] at hfield
    rw [fieldsCustomWrites, hfield.2]
    exact (accounts_of_fixedSize? layout hfirst hfield).append
      (accounts_of_fixedFieldsSize? rest hothers hrest)

theorem accounts_of_fixedVariantSizes : ∀ (variants : List (VariantKey × List (String × Layout)))
    {index : UInt8} {place : Nat} {fields : List (String × Value)} {n : Nat} {w w' : Writer},
    (∀ s ∈ fixedVariantSizes variants, s = some n) →
    (writeVariant index variants place fields).Leads w w' →
    Accounts (variantCustomWrites variants place fields w) w n w'
  | [], _, _, _, _, _, _, _, hw => absurd hw not_leads_fail
  | (_, layouts) :: _, _, 0, _, _, _, _, hn, hw =>
    accounts_of_fixedFieldsSize? layouts (hn _ List.mem_cons_self) hw
  | _ :: rest, _, _ + 1, _, _, _, _, hn, hw =>
    accounts_of_fixedVariantSizes rest (fun s hs => hn s (List.mem_cons_of_mem _ hs)) hw

end

mutual

/-- What is written of a value that has a size is as long as its size but for what the custom leaves exceed
theirs by. -/
theorem accounts_of_size : ∀ (layout : Layout) {v : Value} {n : Nat} {w w' : Writer},
    layout.size v = .ok n → (layout.write v).Leads w w' → Accounts (customWrites layout v w) w n w'
  | .scalar type, v, n, w, w', hn, hw => accounts_scalar hn hw
  | .extension _ e, v, n, w, w', hn, hw => by
    have hleaf : CustomWrite.Announces ⟨e, v, w⟩ n := hn
    refine ⟨fun leaf hmem => ?_, ?_⟩
    · obtain rfl := List.mem_singleton.mp hmem
      exact ⟨n, Nat.le_refl n, hleaf⟩
    · have happended : CustomWrite.appended ⟨e, v, w⟩ = w'.position - w.position := by
        rw [← hw.2]
        rfl
      rw [customWrites, List.map_singleton, List.sum_singleton, CustomWrite.excess_of_announces hleaf,
        happended]
      omega
  | .enum _, _, _, _, _, hn, hw | .numberEnum _, _, _, _, _, hn, hw | .bitmask _, _, _, _, _, hn, hw => by
    cases hn
    exact accounts_of_fixedSize? _ rfl hw
  | .optional inner, v, n, w, w', hn, hw => by
    rw [size] at hn
    rw [write] at hw
    rw [customWrites]
    split at hn
    · rename_i hnull
      rw [if_pos hnull] at hw ⊢
      cases hn
      exact accounts_u8 hw
    · rename_i hnull
      rw [if_neg hnull] at hw ⊢
      obtain ⟨k, hk, rfl⟩ := map_eq_ok_iff.mp hn
      obtain ⟨middle, hpresence, hinner⟩ := leads_bind_iff.mp hw
      rw [hpresence.2]
      exact (accounts_u8 hpresence).append (accounts_of_size inner hk hinner)
  | .array count element, v, n, w, w', hn, hw => by
    obtain ⟨items, hexpect, hn⟩ := bind_eq_ok_iff.mp hn
    obtain ⟨items', hexpect', hw⟩ := leads_ofExcept_bind_iff.mp hw
    obtain rfl : items = items' := Except.ok.inj (hexpect.symm.trans hexpect')
    obtain ⟨middle, hcount, hitems⟩ := leads_bind_iff.mp hw
    rw [customWrites, hexpect]
    change Accounts (itemsCustomWrites (write element) (customWrites element) items
      ((writeCount count items.length).after w)) _ _ _
    rw [hcount.2]
    split at hn
    · -- The elements are not sized here, so their size must come from the layout.
      rename_i width hwidth
      cases hn
      have helement : ∀ v n w w', (.ok width : Except Failure Nat) = .ok n →
          (element.write v).Leads w w' → Accounts (customWrites element v w) w n w' := by
        rintro v n w w' heq hv
        cases heq
        exact accounts_of_fixedSize? element hwidth hv
      exact (accounts_writeCount hcount).append
        (accounts_items helement (sumSizes_const width items) hitems)
    · obtain ⟨k, hk, rfl⟩ := map_eq_ok_iff.mp hn
      exact (accounts_writeCount hcount).append
        (accounts_items (fun _ _ _ _ => accounts_of_size element) hk hitems)
  | .union discriminant variants indices, v, n, w, w', hn, hw => by
    obtain ⟨⟨index, fields⟩, hexpect, hn⟩ := bind_eq_ok_iff.mp hn
    obtain ⟨⟨index', fields'⟩, hexpect', hw⟩ := leads_ofExcept_bind_iff.mp hw
    cases hexpect.symm.trans hexpect'
    obtain ⟨k, hk, rfl⟩ := map_eq_ok_iff.mp hn
    obtain ⟨middle, hindex, hvariant⟩ := leads_bind_iff.mp hw
    rw [customWrites, hexpect]
    change Accounts (variantCustomWrites variants index.toNat fields ((u8 index).after w)) _ _ _
    rw [hindex.2]
    exact (accounts_u8 hindex).append (accounts_of_variantSize variants hk hvariant)
  | .record layouts, v, n, w, w', hn, hw => by
    obtain ⟨fields, hexpect, hn⟩ := bind_eq_ok_iff.mp hn
    obtain ⟨fields', hexpect', hw⟩ := leads_ofExcept_bind_iff.mp hw
    obtain rfl : fields = fields' := Except.ok.inj (hexpect.symm.trans hexpect')
    rw [customWrites, hexpect]
    exact accounts_of_fieldsSize layouts hn hw

theorem accounts_of_fieldsSize : ∀ (layouts : List (String × Layout)) {fields : List (String × Value)}
    {n : Nat} {w w' : Writer}, fieldsSize layouts fields = .ok n →
    (writeFields layouts fields).Leads w w' → Accounts (fieldsCustomWrites layouts fields w) w n w'
  | [], _, _, _, _, hn, hw => by
    cases hn
    exact .nil (leads_pure_iff.mp hw ▸ rfl)
  | (name, layout) :: rest, fields, n, w, w', hn, hw => by
    obtain ⟨first, hfirst, hn⟩ := bind_eq_ok_iff.mp hn
    obtain ⟨others, hothers, hn⟩ := bind_eq_ok_iff.mp hn
    cases hn
    obtain ⟨middle, hfield, hrest⟩ := leads_bind_iff.mp hw
    rw [leads_within_iff] at hfield
    rw [fieldsCustomWrites, hfield.2]
    exact (accounts_of_size layout (mapError_eq_ok_iff.mp hfirst) hfield).append
      (accounts_of_fieldsSize rest hothers hrest)

theorem accounts_of_variantSize : ∀ (variants : List (VariantKey × List (String × Layout)))
    {index : UInt8} {place : Nat} {fields : List (String × Value)} {n : Nat} {w w' : Writer},
    variantSize index variants place fields = .ok n →
    (writeVariant index variants place fields).Leads w w' →
    Accounts (variantCustomWrites variants place fields w) w n w'
  | [], _, _, _, _, _, _, _, hw => absurd hw not_leads_fail
  | (_, layouts) :: _, _, 0, _, _, _, _, hn, hw => accounts_of_fieldsSize layouts hn hw
  | _ :: rest, _, _ + 1, _, _, _, _, hn, hw => accounts_of_variantSize rest hn hw

end

end Layout

theorem eq_zero_of_sum_eq_zero {numbers : List Int}
    (h : (∀ x ∈ numbers, 0 ≤ x) ∨ ∀ x ∈ numbers, x ≤ 0) (hsum : numbers.sum = 0) :
    ∀ x ∈ numbers, x = 0 := by
  intro x hx
  rcases h with hpos | hneg
  · exact List.all_zero_of_le_zero_le_of_sum_eq_zero hpos hsum hx
  · exact List.all_zero_of_le_zero_le_of_sum_eq_zero (M := Intᵒᵈ) hneg hsum hx

namespace Codec

open CustomWrite

/-- A value that is sized and written is encoded exactly if the excesses of its custom leaves add up to
zero. If they all lie on one side, that is, if none makes up for another, each leaf kept its word. Room can be
had for what is announced, so no announcement is beyond the greatest size either. -/
theorem encode_eq_of_excess (c : Codec) {v : Value} {n : Nat} {w : Writer} (hsize : c.size v = .ok n)
    (hroom : n ≤ Writer.maxSize) (hwrite : c.encodeInto v (Writer.ofSize n) = (.ok (), w)) :
    let leaves := c.layout.customWrites v (Writer.ofSize n)
    (∀ leaf ∈ leaves, ∃ k ≤ Writer.maxSize, leaf.Announces k) ∧
      (c.encode v = if (leaves.map excess).sum = 0 then .ok w.toList
        else .error (.sizeMismatch n w.position)) ∧
      ((∀ leaf ∈ leaves, 0 ≤ leaf.excess) ∨ (∀ leaf ∈ leaves, leaf.excess ≤ 0) →
        ((∃ out, c.encode v = .ok out) ↔ ∀ leaf ∈ leaves, leaf.IsExact)) := by
  intro leaves
  have hlead : (c.layout.write v).Leads (Writer.ofSize n) w :=
    ⟨congrArg Prod.fst hwrite, congrArg Prod.snd hwrite⟩
  obtain ⟨hannounces, hposition⟩ := Layout.accounts_of_size c.layout hsize hlead
  have hposition' : (w.position : Int) = n + (leaves.map excess).sum := by
    rw [hposition]
    change ((0 : Nat) : Int) + _ + _ = _
    rw [Int.natCast_zero, Int.zero_add]
  have htotal : w.position = n ↔ (leaves.map excess).sum = 0 := by omega
  have hencode : c.encode v = if (leaves.map excess).sum = 0 then .ok w.toList
      else .error (.sizeMismatch n w.position) := by
    rw [encode_eq, hsize]
    change (do
      (c.encodeInto v (Writer.ofSize n)).1
      if (c.encodeInto v (Writer.ofSize n)).2.position = n then _ else _ : Except _ _) = _
    rw [hwrite]
    exact if_congr htotal rfl rfl
  refine ⟨fun leaf hleaf => ?_, hencode, fun hside => ?_⟩
  · obtain ⟨k, hle, hk⟩ := hannounces leaf hleaf
    exact ⟨k, hle.trans hroom, hk⟩
  have hexact : (∀ leaf ∈ leaves, leaf.IsExact) ↔ ∀ leaf ∈ leaves, leaf.excess = 0 := by
    refine forall₂_congr fun leaf hleaf => ?_
    obtain ⟨k, -, hk⟩ := hannounces leaf hleaf
    exact isExact_iff_excess hk
  rw [hencode, hexact]
  constructor
  · rintro ⟨out, hout⟩ leaf hleaf
    have hsum : (leaves.map excess).sum = 0 := by
      by_contra hne
      rw [if_neg hne] at hout
      cases hout
    refine eq_zero_of_sum_eq_zero ?_ hsum _ (List.mem_map_of_mem hleaf)
    simpa only [List.forall_mem_map] using hside
  · intro hzero
    have hsum : (leaves.map excess).sum = 0 := by
      apply List.sum_eq_zero
      simpa only [List.forall_mem_map] using hzero
    exact ⟨w.toList, if_pos hsum⟩

private def stamp (bytes : List UInt8) (n : Nat) : Extension where
  read := (fun _ => .null) <$> Read.bytes bytes.length
  write _ := Write.bytes bytes
  size _ := .ok n

private def stamps : Extensions := ⟨[("wide", stamp [0, 0] 1), ("short", stamp [7] 3)]⟩

private def parcel : Codec :=
  .ofLayout stamps (.array .one (.custom "wide")) (.array .one (.extension "wide" (stamp [0, 0] 1)))

/-- Both elements take a byte more than they announce. -/
theorem encode_eq_of_excess_parcel :
    ofSchema stamps "type" (.array .one (.custom "wide")) = .ok parcel ∧
      parcel.size (.array [.null, .null]) = .ok 3 ∧
      (parcel.encodeInto (.array [.null, .null]) (Writer.ofSize 3)).1 = .ok () ∧
      parcel.encode (.array [.null, .null]) = .error (.sizeMismatch 3 5) := by
  have hsize : parcel.size (.array [.null, .null]) = .ok 3 := rfl
  have hwrite : parcel.encodeInto (.array [.null, .null]) (Writer.ofSize 3) =
    (.ok (), ⟨#[2, 0, 0, 0, 0], 3, true⟩) := rfl
  have hroom : 3 ≤ Writer.maxSize := by decide
  exact ⟨rfl, hsize, rfl, (encode_eq_of_excess parcel hsize hroom hwrite).2.1⟩

private def letter : Schema :=
  .record [("a", .custom "wide"), ("b", .custom "wide"), ("c", .custom "short")]

private def letterCodec : Codec :=
  .ofLayout stamps letter (.record [("a", .extension "wide" (stamp [0, 0] 1)),
    ("b", .extension "wide" (stamp [0, 0] 1)), ("c", .extension "short" (stamp [7] 3))])

/-- Two leaves write a byte too many and the third two too few, and the whole is encoded. -/
theorem encode_of_excess_balanced :
    ofSchema stamps "type" letter = .ok letterCodec ∧
      letterCodec.encode (.object []) = .ok [0, 0, 0, 0, 7] ∧
      letterCodec.size (.object []) = .ok 5 ∧
      (letterCodec.layout.customWrites (.object []) (Writer.ofSize 5)).length = 3 ∧
      ∀ leaf ∈ letterCodec.layout.customWrites (.object []) (Writer.ofSize 5), ¬leaf.IsExact := by
  refine ⟨rfl, rfl, rfl, rfl, ?_⟩
  intro leaf hleaf hexact
  have hzero : leaf.excess = 0 :=
    hexact.elim fun n hn => (isExact_iff_excess hn.1).mp hexact
  have hexcess : (letterCodec.layout.customWrites (.object []) (Writer.ofSize 5)).map excess =
    [1, 1, -2] := rfl
  have hmem := List.mem_map_of_mem (f := excess) hleaf
  rw [hexcess, hzero] at hmem
  revert hmem
  decide

end Codec

end WireSchema
