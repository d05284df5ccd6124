import WireSchema.Proofs.Interchange

/-! A document whose integers have 32 bits is the document of the value that it becomes. A value comes
back from its document with its numbers in the three types that documents lead to. -/

namespace WireSchema

namespace Json

mutual

/-- Every integer is one of 32 bits, with or without a sign, and every float is finite. -/
def Portable : Json → Prop
  | .null | .bool _ | .text _ => True
  | .int n => -0x80000000 ≤ n ∧ n ≤ 0xFFFFFFFF
  | .float x => x.isFinite = true
  | .array items => ItemsPortable items
  | .object members => MembersPortable members

def ItemsPortable : List Json → Prop
  | [] => True
  | j :: rest => Portable j ∧ ItemsPortable rest

def MembersPortable : List (String × Json) → Prop
  | [] => True
  | (_, j) :: rest => Portable j ∧ MembersPortable rest

end

end Json

namespace Value

def ofWord (n : Int) : Value :=
  if -0x80000000 ≤ n ∧ n < 0x80000000 then .i32 (Int32.ofInt n) else .u32 (UInt32.ofNat n.toNat)

mutual

/-- The value with every integer as a signed integer of 32 bits or, where it does not fit, an unsigned
one, and every float in 64 bits. -/
def widened : Value → Value
  | .null => .null
  | .bool b => .bool b
  | .u8 n => ofWord n.toNat
  | .u16 n => ofWord n.toNat
  | .u32 n => ofWord n.toNat
  | .i8 n => ofWord n.toInt
  | .i16 n => ofWord n.toInt
  | .i32 n => ofWord n.toInt
  | .f32 x => .f64 x.toBinary64
  | .f64 x => .f64 x
  | .string s => .string s
  | .array items => .array (itemsWidened items)
  | .object fields => .object (fieldsWidened fields)

def itemsWidened : List Value → List Value
  | [] => []
  | v :: rest => v.widened :: itemsWidened rest

def fieldsWidened : List (String × Value) → List (String × Value)
  | [] => []
  | (name, v) :: rest => (name, v.widened) :: fieldsWidened rest

end

theorem ofInt_eq_ofWord {n : Int} (hlow : -0x80000000 ≤ n) (hhigh : n ≤ 0xFFFFFFFF) : ofInt n = ofWord n := by
  rw [ofInt, ofWord]
  split
  · rfl
  · rw [if_pos (by omega)]

theorem viaJson_eq_ofWord {v : Value} {n : Int} (h : v.toInt? = some n) : v.viaJson = ofWord n := by
  obtain ⟨hlow, hhigh⟩ := toInt?_bounds h
  rw [viaJson_eq_ofInt h, ofInt_eq_ofWord (by omega) (by omega)]

mutual

theorem viaJson_eq_widened : ∀ {v : Value}, v.isFinite = true → v.viaJson = v.widened
  | .null, _ | .bool _, _ | .string _, _ => rfl
  | .u8 _, _ | .u16 _, _ | .u32 _, _ | .i8 _, _ | .i16 _, _ | .i32 _, _ => viaJson_eq_ofWord rfl
  | .f32 _, h => viaJson_f32 h
  | .f64 _, h => viaJson_f64 h
  | .array items, h => by
    rw [viaJson_array, widened, map_viaJson_eq_itemsWidened (isFinite_array_iff.mp h)]
  | .object fields, h => by
    rw [viaJson_object, widened, fieldsViaJson_eq_fieldsWidened (isFinite_object_iff.mp h)]

theorem map_viaJson_eq_itemsWidened : ∀ {items : List Value}, (∀ v ∈ items, v.isFinite = true) →
    items.map viaJson = itemsWidened items
  | [], _ => rfl
  | v :: rest, h => by
    rw [List.forall_mem_cons] at h
    rw [List.map_cons, itemsWidened, viaJson_eq_widened h.1, map_viaJson_eq_itemsWidened h.2]

theorem fieldsViaJson_eq_fieldsWidened : ∀ {fields : List (String × Value)},
    (∀ f ∈ fields, f.2.isFinite = true) → fieldsViaJson fields = fieldsWidened fields
  | [], _ => rfl
  | (name, v) :: rest, h => by
    rw [List.forall_mem_cons] at h
    have hrest := fieldsViaJson_eq_fieldsWidened h.2
    rw [fieldsViaJson] at hrest
    rw [fieldsViaJson, List.map_cons, fieldsWidened, viaJson_eq_widened h.1, hrest]

end

end Value

namespace Json

open Value

theorem ofValue_ofWord {n : Int} (hlow : -0x80000000 ≤ n) (hhigh : n ≤ 0xFFFFFFFF) :
    ofValue (ofWord n) = .int n := by
  rw [ofWord]
  split
  · rw [ofValue, Int32.toInt_ofInt_of_le (by omega) (by omega)]
  · have hnat : n.toNat % 2 ^ 32 = n.toNat := Nat.mod_eq_of_lt (by omega)
    rw [ofValue, UInt32.toNat_ofNat', hnat, Int.toNat_of_nonneg (by omega)]

mutual

theorem ofValue_ofJson : ∀ {j : Json}, j.Portable → ofValue (ofJson j) = j
  | .null, _ | .bool _, _ | .text _, _ => rfl
  | .int n, h => by rw [ofJson, ofInt_eq_ofWord h.1 h.2, ofValue_ofWord h.1 h.2]
  | .float x, h => by
    have hfinite : x.isFinite = true := h
    rw [ofJson, ofValue, ofBinary64, if_pos hfinite]
  | .array items, h => by rw [ofJson, ofValue, ofItems_ofItems h]
  | .object members, h => by rw [ofJson, ofValue, ofFields_ofMembers h]

theorem ofItems_ofItems : ∀ {items : List Json}, ItemsPortable items →
    ofItems (Value.ofItems items) = items
  | [], _ => rfl
  | j :: rest, h => by rw [Value.ofItems, ofItems, ofValue_ofJson h.1, ofItems_ofItems h.2]

theorem ofFields_ofMembers : ∀ {members : List (String × Json)}, MembersPortable members →
    ofFields (ofMembers members) = members
  | [], _ => rfl
  | (name, j) :: rest, h => by rw [ofMembers, ofFields, ofValue_ofJson h.1, ofFields_ofMembers h.2]

end

theorem portable_int {v : Value} {n : Int} (h : v.toInt? = some n) : (int n).Portable := by
  obtain ⟨hlow, hhigh⟩ := toInt?_bounds h
  exact ⟨by omega, by omega⟩

theorem portable_ofBinary64 (x : Binary64) : (ofBinary64 x).Portable := by
  rw [ofBinary64]
  split
  · assumption
  · trivial

mutual

theorem portable_ofValue : ∀ v : Value, (ofValue v).Portable
  | .null | .bool _ | .string _ => trivial
  | .u8 n => @portable_int (.u8 n) _ rfl
  | .u16 n => @portable_int (.u16 n) _ rfl
  | .u32 n => @portable_int (.u32 n) _ rfl
  | .i8 n => @portable_int (.i8 n) _ rfl
  | .i16 n => @portable_int (.i16 n) _ rfl
  | .i32 n => @portable_int (.i32 n) _ rfl
  | .f32 x => portable_ofBinary64 x.toBinary64
  | .f64 x => portable_ofBinary64 x
  | .array items => itemsPortable_ofItems items
  | .object fields => membersPortable_ofFields fields

theorem itemsPortable_ofItems : ∀ items : List Value, ItemsPortable (ofItems items)
  | [] => trivial
  | v :: rest => ⟨portable_ofValue v, itemsPortable_ofItems rest⟩

theorem membersPortable_ofFields : ∀ fields : List (String × Value), MembersPortable (ofFields fields)
  | [] => trivial
  | (_, v) :: rest => ⟨portable_ofValue v, membersPortable_ofFields rest⟩

end

/-- Documents with integers of 32 bits come back from their values as they were. Values come back from their
documents but for the width of their numbers, and the second time as they are. -/
theorem conversions_inverse_up_to_width :
    (∀ j : Json, j.Portable → ofValue (ofJson j) = j) ∧
      ∀ v : Value, v.isFinite = true → ofJson (ofValue v) = v.widened ∧
        ofJson (ofValue v.widened) = v.widened := by
  refine ⟨fun j => ofValue_ofJson, fun v hv => ?_⟩
  have hback : ofJson (ofValue v) = v.widened := viaJson_eq_widened hv
  refine ⟨hback, ?_⟩
  -- The document of any value is the document of the value that it becomes.
  rw [← hback, ofValue_ofJson (portable_ofValue v)]

private def limits : Json :=
  .object [("least", .int (-0x80000000)), ("most", .int 0x7FFFFFFF), ("beyond", .int 0x80000000),
    ("greatest", .int 0xFFFFFFFF), ("zero", .float ⟨0x8000000000000000⟩),
    ("two", .array [.float ⟨0x4000000000000000⟩, .int 2])]

private def limitsValue : Value :=
  .object [("least", .i32 (-0x80000000)), ("most", .i32 0x7FFFFFFF), ("beyond", .u32 0x80000000),
    ("greatest", .u32 0xFFFFFFFF), ("zero", .f64 ⟨0x8000000000000000⟩),
    ("two", .array [.f64 ⟨0x4000000000000000⟩, .i32 2])]

private def widths : Value := .array [.u8 255, .i16 (-1), .u32 0x80000000, .f32 ⟨0x3FC00000⟩]

private def widthsWidened : Value :=
  .array [.i32 255, .i32 (-1), .u32 0x80000000, .f64 ⟨0x3FF8000000000000⟩]

theorem conversions_inverse_up_to_width_limits :
    limits.Portable ∧ ofJson limits = limitsValue ∧ ofValue limitsValue = limits ∧
      widths.isFinite = true ∧ ofJson (ofValue widths) = widthsWidened ∧
      ofJson (ofValue widthsWidened) = widthsWidened := by
  have hportable : limits.Portable := by
    simp only [limits, Portable, MembersPortable, ItemsPortable]
    decide
  have hfinite : widths.isFinite = true := by decide
  have hvalue : ofJson limits = limitsValue := rfl
  have hwide : (⟨0x3FC00000⟩ : Binary32).toBinary64 = ⟨0x3FF8000000000000⟩ := by decide
  have hwidened : widths.widened = widthsWidened := by
    simp [widths, widthsWidened, widened, itemsWidened, hwide, ofWord]
  obtain ⟨hback, hagain⟩ := conversions_inverse_up_to_width.2 widths hfinite
  rw [hwidened] at hback hagain
  have hdocument := conversions_inverse_up_to_width.1 limits hportable
  rw [hvalue] at hdocument
  exact ⟨hportable, hvalue, hdocument, hfinite, hback, hagain⟩

end Json

end WireSchema
