import Mathlib.Data.List.Sort
import WireSchema.Layout.OfSchema

/-! What labels, flags and tags must satisfy to be told apart by one byte, and what the tables made from
them then say. -/

namespace WireSchema

namespace Assoc

variable {α β : Type} [BEq α] [LawfulBEq α]

theorem insert_of_not_mem {k : α} (v : β) {table : List (α × β)} (h : k ∉ table.map Prod.fst) :
    insert k v table = table ++ [(k, v)] := by
  induction table with
  | nil => rfl
  | cons b rest ih =>
    obtain ⟨k', v'⟩ := b
    rw [List.map_cons, List.mem_cons, not_or] at h
    rw [insert, if_neg (by simpa using h.1), ih h.2, List.cons_append]

private theorem foldl_insert (bindings table : List (α × β))
    (h : ((table ++ bindings).map Prod.fst).Nodup) :
    bindings.foldl (fun table b => insert b.1 b.2 table) table = table ++ bindings := by
  induction bindings generalizing table with
  | nil => rw [List.foldl_nil, List.append_nil]
  | cons b rest ih =>
    have hsplit : table ++ b :: rest = (table ++ [b]) ++ rest := by simp
    have hnew : b.1 ∉ table.map Prod.fst := by
      intro hmem
      rw [List.map_append, List.nodup_append] at h
      exact h.2.2 _ hmem _ List.mem_cons_self rfl
    rw [List.foldl_cons, insert_of_not_mem b.2 hnew, ih _ (hsplit ▸ h), ← hsplit]

theorem ofList_of_nodup {bindings : List (α × β)} (h : (bindings.map Prod.fst).Nodup) :
    ofList bindings = bindings :=
  foldl_insert bindings [] h

theorem lookup_eq_some_iff_mem {table : List (α × β)} (h : (table.map Prod.fst).Nodup) {k : α}
    {v : β} : table.lookup k = some v ↔ (k, v) ∈ table := by
  induction table with
  | nil => simp
  | cons b rest ih =>
    obtain ⟨k', v'⟩ := b
    rw [List.map_cons, List.nodup_cons] at h
    by_cases hk : k = k'
    · subst hk
      have hrest : (k, v) ∉ rest := fun hmem =>
        h.1 (List.mem_map.mpr ⟨(k, v), hmem, rfl⟩)
      simp [hrest, eq_comm]
    · have hbeq : (k == k') = false := beq_false_of_ne hk
      rw [List.lookup_cons, hbeq, List.mem_cons, ih h.2]
      simp [hk]

theorem isSome_lookup_iff {table : List (α × β)} {k : α} :
    (table.lookup k).isSome = true ↔ k ∈ table.map Prod.fst := by
  simp only [List.lookup_isSome_iff, beq_iff_eq, List.mem_map, eq_comm (a := k)]

theorem lookup_append_cons {k : α} {table : List (α × β)} (h : k ∉ table.map Prod.fst) (v : β)
    (rest : List (α × β)) : (table ++ (k, v) :: rest).lookup k = some v := by
  induction table with
  | nil => exact List.lookup_cons_self
  | cons b table ih =>
    rw [List.map_cons, List.mem_cons, not_or] at h
    rw [List.cons_append, List.lookup_cons, beq_false_of_ne h.1]
    exact ih h.2

theorem mem_keys_insert_iff {k k' : α} {v : β} {table : List (α × β)} :
    k' ∈ (insert k v table).map Prod.fst ↔ k' = k ∨ k' ∈ table.map Prod.fst := by
  rw [← isSome_lookup_iff, ← isSome_lookup_iff]
  by_cases h : k' = k
  · subst h
    simp [lookup_insert_self]
  · simp [lookup_insert_of_ne h, h]

theorem mem_keys_ofList_iff {bindings : List (α × β)} {k : α} :
    k ∈ (ofList bindings).map Prod.fst ↔ k ∈ bindings.map Prod.fst := by
  have hfold : ∀ (bindings table : List (α × β)),
      k ∈ (bindings.foldl (fun table b => insert b.1 b.2 table) table).map Prod.fst ↔
        k ∈ bindings.map Prod.fst ∨ k ∈ table.map Prod.fst := by
    intro bindings
    induction bindings with
    | nil => simp
    | cons b rest ih =>
      intro table
      rw [List.foldl_cons, ih, mem_keys_insert_iff, List.map_cons, List.mem_cons, ← or_assoc,
        or_comm (a := k ∈ rest.map Prod.fst)]
  refine (hfold bindings []).trans ?_
  simp

theorem mem_insert {k : α} {v : β} {table : List (α × β)} {b : α × β} (h : b ∈ insert k v table) :
    b = (k, v) ∨ b ∈ table := by
  induction table with
  | nil => exact Or.inl (List.mem_singleton.mp h)
  | cons c rest ih =>
    rw [insert] at h
    split at h
    · rename_i hk
      obtain rfl := eq_of_beq hk
      exact (List.mem_cons.mp h).imp_right (List.mem_cons_of_mem _)
    · rcases List.mem_cons.mp h with rfl | h
      · exact Or.inr List.mem_cons_self
      · exact (ih h).imp_right (List.mem_cons_of_mem _)

theorem mem_of_lookup {table : List (α × β)} {k : α} {v : β} (h : table.lookup k = some v) :
    (k, v) ∈ table := by
  obtain ⟨front, back, rfl, -⟩ := List.lookup_eq_some_iff.mp h
  exact List.mem_append_right front List.mem_cons_self

theorem mem_of_lookup_ofList {bindings : List (α × β)} {k : α} {v : β}
    (h : (ofList bindings).lookup k = some v) : (k, v) ∈ bindings := by
  have hfold : ∀ (bindings table : List (α × β)) (b : α × β),
      b ∈ bindings.foldl (fun table b => insert b.1 b.2 table) table → b ∈ bindings ∨ b ∈ table := by
    intro bindings
    induction bindings with
    | nil => exact fun table b hb => Or.inr hb
    | cons c rest ih =>
      intro table b hb
      rcases ih _ b hb with hrest | hinsert
      · exact Or.inl (List.mem_cons_of_mem c hrest)
      · rcases mem_insert hinsert with rfl | htable
        · exact Or.inl List.mem_cons_self
        · exact Or.inr htable
  exact (hfold bindings [] _ (mem_of_lookup h)).resolve_right List.not_mem_nil

theorem lookup_of_perm {table table' : List (α × β)} (hnodup : (table.map Prod.fst).Nodup)
    (hperm : table.Perm table') (k : α) : table'.lookup k = table.lookup k := by
  apply Option.ext
  intro v
  rw [lookup_eq_some_iff_mem hnodup, lookup_eq_some_iff_mem ((hperm.map _).nodup_iff.mp hnodup),
    hperm.mem_iff]

omit [LawfulBEq α] in
theorem lookup_map_snd {γ : Type} (f : β → γ) (table : List (α × β)) (k : α) :
    (table.map fun b => (b.1, f b.2)).lookup k = (table.lookup k).map f := by
  induction table with
  | nil => rfl
  | cons b rest ih =>
    rw [List.map_cons, List.lookup_cons, List.lookup_cons, ih]
    cases k == b.1 <;> rfl

end Assoc

namespace Schema

/-- Labels and ordinals that a byte tells apart. -/
structure LabelsFit {α : Type} (labels : List (α × Int64)) : Prop where
  nonempty : labels ≠ []
  labels_nodup : (labels.map Prod.fst).Nodup
  ordinals_nodup : (labels.map Prod.snd).Nodup
  range : ∀ l ∈ labels, 0 ≤ l.2.toInt ∧ l.2.toInt ≤ 255

/-- Flags that occupy the positions below their number, few enough for a byte. -/
structure FlagsFit (flags : List (String × Int64)) : Prop where
  nonempty : flags ≠ []
  few : flags.length ≤ maxFlags
  names_nodup : (flags.map Prod.fst).Nodup
  positions_nodup : (flags.map Prod.snd).Nodup
  range : ∀ f ∈ flags, 0 ≤ f.2.toInt ∧ f.2.toInt < flags.length

theorem LabelsFit.perm {α : Type} {labels labels' : List (α × Int64)} (h : LabelsFit labels)
    (hperm : labels.Perm labels') : LabelsFit labels' where
  nonempty hnil := h.nonempty (hnil ▸ hperm).eq_nil
  labels_nodup := (hperm.map _).nodup_iff.mp h.labels_nodup
  ordinals_nodup := (hperm.map _).nodup_iff.mp h.ordinals_nodup
  range l hl := h.range l (hperm.mem_iff.mpr hl)

theorem FlagsFit.perm {flags flags' : List (String × Int64)} (h : FlagsFit flags)
    (hperm : flags.Perm flags') : FlagsFit flags' where
  nonempty hnil := h.nonempty (hnil ▸ hperm).eq_nil
  few := hperm.length_eq ▸ h.few
  names_nodup := (hperm.map _).nodup_iff.mp h.names_nodup
  positions_nodup := (hperm.map _).nodup_iff.mp h.positions_nodup
  range f hf := hperm.length_eq ▸ h.range f (hperm.mem_iff.mpr hf)

def flagAt? (flags : List (String × Int64)) (position : Nat) : Option String :=
  (flags.find? fun f => f.2.toInt == (position : Int)).map Prod.fst

/-- The names of the flags, in the order of their positions. -/
def flagNames (flags : List (String × Int64)) : List String :=
  (List.range flags.length).filterMap (flagAt? flags)

end Schema

namespace Layout

open Schema

theorem toNat_ordinalByte {ordinal : Int64} (h : 0 ≤ ordinal.toInt ∧ ordinal.toInt ≤ 255) :
    (ordinalByte ordinal).toNat = ordinal.toInt.toNat := by
  rw [ordinalByte, UInt8.ofInt, UInt8.toNat_ofNat']
  omega

theorem ordinalByte_inj {a b : Int64} (ha : 0 ≤ a.toInt ∧ a.toInt ≤ 255)
    (hb : 0 ≤ b.toInt ∧ b.toInt ≤ 255) (h : ordinalByte a = ordinalByte b) : a = b := by
  have hnat := congrArg UInt8.toNat h
  rw [toNat_ordinalByte ha, toNat_ordinalByte hb] at hnat
  apply Int64.toInt_inj.mp
  omega

def labelTable {α : Type} [BEq α] (labels : List (α × Int64)) : LabelTable α :=
  .ofList (labels.map fun l => (l.1, ordinalByte l.2))

variable {α : Type} [BEq α] [LawfulBEq α] {labels : List (α × Int64)}

theorem ordinals_labelTable (h : LabelsFit labels) :
    (labelTable labels).ordinals = labels.map fun l => (l.1, ordinalByte l.2) := by
  apply Assoc.ofList_of_nodup
  rw [List.map_map]
  exact h.labels_nodup

omit [BEq α] [LawfulBEq α] in
private theorem bytes_nodup (h : LabelsFit labels) :
    (labels.map fun l => ordinalByte l.2).Nodup := by
  have hsplit : (labels.map fun l => ordinalByte l.2) = (labels.map Prod.snd).map ordinalByte := by
    rw [List.map_map]; rfl
  rw [hsplit]
  apply List.Nodup.map_on _ h.ordinals_nodup
  intro a ha b hb hbyte
  obtain ⟨l, hl, rfl⟩ := List.mem_map.mp ha
  obtain ⟨l', hl', rfl⟩ := List.mem_map.mp hb
  exact ordinalByte_inj (h.range l hl) (h.range l' hl') hbyte

theorem lookup_ordinals_labelTable (h : LabelsFit labels) (label : α) :
    (labelTable labels).ordinals.lookup label = (labels.lookup label).map ordinalByte := by
  rw [ordinals_labelTable h, Assoc.lookup_map_snd]

theorem lookup_labels_labelTable (h : LabelsFit labels) {byte : UInt8} {label : α} :
    (labelTable labels).labels.lookup byte = some label ↔
      (labelTable labels).ordinals.lookup label = some byte := by
  have hlabels : (labelTable labels).labels = labels.map fun l => (ordinalByte l.2, l.1) := by
    have hnodup : (((labels.map fun l => (l.1, ordinalByte l.2)).map Prod.swap).map
        Prod.fst).Nodup := by
      rw [List.map_map, List.map_map]
      exact bytes_nodup h
    refine (Assoc.ofList_of_nodup hnodup).trans ?_
    rw [List.map_map]
    rfl
  rw [ordinals_labelTable h, hlabels, Assoc.lookup_eq_some_iff_mem, Assoc.lookup_eq_some_iff_mem]
  · simp only [List.mem_map, Prod.mk.injEq, and_comm]
  · rw [List.map_map]
    exact h.labels_nodup
  · rw [List.map_map]
    exact bytes_nodup h

theorem positions_perm {flags : List (String × Int64)} (h : FlagsFit flags) :
    (flags.map fun f => f.2.toInt.toNat).Perm (List.range flags.length) := by
  have hnodup : (flags.map fun f => f.2.toInt.toNat).Nodup := by
    have hsplit : (flags.map fun f => f.2.toInt.toNat) =
        (flags.map Prod.snd).map fun p => p.toInt.toNat := by rw [List.map_map]; rfl
    rw [hsplit]
    apply List.Nodup.map_on _ h.positions_nodup
    intro a ha b hb hab
    obtain ⟨f, hf, rfl⟩ := List.mem_map.mp ha
    obtain ⟨g, hg, rfl⟩ := List.mem_map.mp hb
    have := h.range f hf
    have := h.range g hg
    apply Int64.toInt_inj.mp
    omega
  have hmem : ∀ p ∈ flags.map fun f => f.2.toInt.toNat, p ∈ List.range flags.length := by
    intro p hp
    obtain ⟨f, hf, rfl⟩ := List.mem_map.mp hp
    have := h.range f hf
    rw [List.mem_range]
    omega
  apply (List.subperm_of_subset hnodup hmem).perm_of_length_le
  rw [List.length_map, List.length_range]

private def inOrder (flags : List (String × Int64)) : List (String × Int64) :=
  flags.mergeSort fun a b => decide (a.2.toInt ≤ b.2.toInt)

private theorem inOrder_perm (flags : List (String × Int64)) : (inOrder flags).Perm flags :=
  List.mergeSort_perm _ _

private theorem pairwise_inOrder (flags : List (String × Int64)) :
    (inOrder flags).Pairwise fun a b => a.2.toInt ≤ b.2.toInt := by
  have hsort := @List.pairwise_mergeSort _ (fun a b : String × Int64 =>
    decide (a.2.toInt ≤ b.2.toInt)) (by intro a b c; simp; omega) (by intro a b; simp; omega) flags
  simpa [inOrder] using hsort

private theorem positions_inOrder {flags : List (String × Int64)} (h : FlagsFit flags) :
    (inOrder flags).map (fun f => f.2.toInt.toNat) = List.range flags.length := by
  have hperm := inOrder_perm flags
  have hsorted := pairwise_inOrder flags
  have hall : ((inOrder flags).map fun f => f.2.toInt.toNat).Perm (List.range flags.length) :=
    (hperm.map _).trans (positions_perm h)
  apply hall.eq_of_pairwise' (r := (· ≤ ·)) _ (List.pairwise_lt_range.imp Nat.le_of_lt)
  rw [List.pairwise_map]
  exact hsorted.imp fun hab => Int.toNat_le_toNat hab

private theorem flagAt?_position {flags : List (String × Int64)} (h : FlagsFit flags)
    {f : String × Int64} (hf : f ∈ flags) : flagAt? flags f.2.toInt.toNat = some f.1 := by
  have hpos := h.range f hf
  have hsome : (flags.find? fun g => g.2.toInt == (f.2.toInt.toNat : Int)).isSome := by
    rw [List.find?_isSome]
    exact ⟨f, hf, by simp only [beq_iff_eq]; omega⟩
  obtain ⟨g, hg⟩ := Option.isSome_iff_exists.mp hsome
  have hsame : g.2.toInt = (f.2.toInt.toNat : Int) := by simpa using List.find?_some hg
  have heq : g = f := by
    apply List.inj_on_of_nodup_map h.positions_nodup (List.mem_of_find?_eq_some hg) hf
    apply Int64.toInt_inj.mp
    omega
  rw [flagAt?, hg, heq]
  rfl

/-- Sorting by position puts every flag at its position. -/
theorem orderedFlags_eq_flagNames {flags : List (String × Int64)} (h : FlagsFit flags) :
    orderedFlags flags = flagNames flags := by
  have hfind : ∀ f ∈ inOrder flags, flagAt? flags f.2.toInt.toNat = some f.1 :=
    fun f hf => flagAt?_position h (List.mem_mergeSort.mp hf)
  calc orderedFlags flags
      = (inOrder flags).filterMap fun f => some f.1 := (congrFun List.filterMap_eq_map' _).symm
    _ = (inOrder flags).filterMap fun f => flagAt? flags f.2.toInt.toNat :=
        List.filterMap_congr fun f hf => (hfind f hf).symm
    _ = ((inOrder flags).map fun f => f.2.toInt.toNat).filterMap (flagAt? flags) := by
        rw [List.filterMap_map]; rfl
    _ = flagNames flags := by rw [positions_inOrder h, flagNames]

private theorem position_of_getElem?_inOrder {flags : List (String × Int64)} (h : FlagsFit flags)
    {i : Nat} {f : String × Int64} (hf : (inOrder flags)[i]? = some f) : f.2.toInt = i := by
  have hrange := h.range f ((inOrder_perm flags).mem_iff.mp (List.mem_of_getElem? hf))
  have hposition : (List.range flags.length)[i]? = some f.2.toInt.toNat := by
    rw [← positions_inOrder h, List.getElem?_map, hf, Option.map_some]
  obtain ⟨_, hi⟩ := List.getElem?_eq_some_iff.mp hposition
  rw [List.getElem_range] at hi
  omega

theorem getElem?_orderedFlags_iff {flags : List (String × Int64)} (h : FlagsFit flags) {i : Nat}
    {name : String} : (orderedFlags flags)[i]? = some name ↔
      ∃ position, (name, position) ∈ flags ∧ position.toInt = i := by
  change ((inOrder flags).map Prod.fst)[i]? = some name ↔ _
  rw [List.getElem?_map, Option.map_eq_some_iff]
  constructor
  · rintro ⟨f, hf, rfl⟩
    exact ⟨f.2, (inOrder_perm flags).mem_iff.mp (List.mem_of_getElem? hf),
      position_of_getElem?_inOrder h hf⟩
  · rintro ⟨position, hmem, hposition⟩
    obtain ⟨j, hj⟩ := List.mem_iff_getElem?.mp ((inOrder_perm flags).mem_iff.mpr hmem)
    have hplace : position.toInt = j := position_of_getElem?_inOrder h hj
    obtain rfl : i = j := by omega
    exact ⟨(name, position), hj, rfl⟩

theorem orderedFlags_of_perm {flags flags' : List (String × Int64)} (h : FlagsFit flags)
    (hperm : flags.Perm flags') : orderedFlags flags' = orderedFlags flags := by
  have hsame : inOrder flags' = inOrder flags := by
    apply List.Perm.eq_of_pairwise _ (pairwise_inOrder flags') (pairwise_inOrder flags)
      ((inOrder_perm flags').trans (hperm.symm.trans (inOrder_perm flags).symm))
    intro a b ha hb hab hba
    have ha' : a ∈ flags := hperm.mem_iff.mpr ((inOrder_perm flags').mem_iff.mp ha)
    have hb' : b ∈ flags := (inOrder_perm flags).mem_iff.mp hb
    apply List.inj_on_of_nodup_map h.positions_nodup ha' hb'
    exact Int64.toInt_inj.mp (Int.le_antisymm hab hba)
  exact congrArg (List.map Prod.fst) hsame

theorem flagNames_perm {flags : List (String × Int64)} (h : FlagsFit flags) :
    (flagNames flags).Perm (flags.map Prod.fst) := by
  rw [← orderedFlags_eq_flagNames h]
  exact (List.mergeSort_perm _ _).map Prod.fst

theorem flagNames_nodup {flags : List (String × Int64)} (h : FlagsFit flags) :
    (flagNames flags).Nodup :=
  (flagNames_perm h).nodup_iff.mpr h.names_nodup

theorem length_flagNames {flags : List (String × Int64)} (h : FlagsFit flags) :
    (flagNames flags).length = flags.length := by
  rw [(flagNames_perm h).length_eq, List.length_map]

end Layout

end WireSchema
