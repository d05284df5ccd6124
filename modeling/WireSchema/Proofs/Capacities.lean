import WireSchema.Proofs.Scripts

/-! The room that a writer has in the end depends on the room it began with and on how many bytes it
holds, and not on the calls by which they came. -/

namespace WireSchema

namespace Writer

/-- Room that is multiplied for as long as it is too small reaches its final size in the end. -/
inductive Enlarges (needed : Nat) : Nat → Nat → Prop
  | enough {room : Nat} : needed ≤ room → Enlarges needed room room
  | again {room final : Nat} :
      room < needed → Enlarges needed (growthFactor * room) final → Enlarges needed room final

theorem Enlarges.needed_le {needed room final : Nat} (h : Enlarges needed room final) :
    needed ≤ final := by
  induction h with
  | enough hle => exact hle
  | again _ _ ih => exact ih

theorem Enlarges.exists_isLeast {needed room final : Nat} (h : Enlarges needed room final) :
    ∃ k, IsLeast {k | needed ≤ room * growthFactor ^ k} k ∧ final = room * growthFactor ^ k := by
  induction h with
  | @enough room hle =>
    refine ⟨0, ⟨?_, fun j _ => j.zero_le⟩, (mul_one room).symm⟩
    simpa using hle
  | @again room final hlt _ ih =>
    obtain ⟨k, ⟨hk, hleast⟩, rfl⟩ := ih
    have hshift : ∀ j, growthFactor * room * growthFactor ^ j = room * growthFactor ^ (j + 1) := by
      intro j
      ring
    refine ⟨k + 1, ⟨(hshift k).subst hk, ?_⟩, hshift k⟩
    -- The loop has not stopped at once, so no multiplication at all is too few.
    rintro (_ | j) hj
    · have hle : needed ≤ room := by simpa using hj
      omega
    · apply Nat.succ_le_succ
      apply hleast
      exact (hshift j).symm.subst hj

theorem enlarges_grow {room : Nat} (h : 0 < room) (needed : Nat) :
    Enlarges needed room (grow room needed) := by
  fun_induction grow room needed with
  | case1 room hsmall ih =>
    apply Enlarges.again hsmall.2
    apply ih
    simp only [growthFactor]
    omega
  | case2 room hlarge =>
    apply Enlarges.enough
    omega

theorem le_grow (room needed : Nat) : room ≤ grow room needed := by
  fun_induction grow room needed with
  | case1 room hsmall ih =>
    simp only [growthFactor] at ih ⊢
    omega
  | case2 => exact Nat.le_refl _

theorem grow_of_le {room needed : Nat} (h : needed ≤ room) : grow room needed = room := by
  unfold grow
  apply if_neg
  omega

theorem grow_grow {held needed : Nat} (h : held ≤ needed) (room : Nat) :
    grow (grow room held) needed = grow room needed := by
  fun_induction grow room held with
  | case1 room hsmall ih =>
    have hstep : grow room needed = grow (growthFactor * room) needed := by
      rw [grow, if_pos ⟨hsmall.1, by omega⟩]
    rw [ih, hstep]
  | case2 => rfl

/-- The room of a writer that began with `initial` once so many bytes had to fit. -/
def roomFor (initial held : Nat) : Nat :=
  if held ≤ initial then initial else grow (max initial 1) held

@[simp] theorem roomFor_zero (initial : Nat) : roomFor initial 0 = initial :=
  if_pos initial.zero_le

theorem roomFor_of_le {initial held : Nat} (h : held ≤ initial) : roomFor initial held = initial :=
  if_pos h

theorem enlarges_roomFor {initial held : Nat} (h : initial < held) :
    Enlarges held (max initial 1) (roomFor initial held) := by
  unfold roomFor
  rw [if_neg (by omega)]
  apply enlarges_grow
  omega

theorem le_roomFor (initial held : Nat) : held ≤ roomFor initial held := by
  by_cases h : held ≤ initial
  · rwa [roomFor_of_le h]
  · exact (enlarges_roomFor (Nat.lt_of_not_le h)).needed_le

theorem roomFor_roomFor {held needed : Nat} (h : held ≤ needed) (initial : Nat) :
    roomFor (roomFor initial held) needed = roomFor initial needed := by
  by_cases hfirst : held ≤ initial
  · rw [roomFor_of_le hfirst]
  have hpos : max (grow (max initial 1) held) 1 = grow (max initial 1) held := by
    have := le_grow (max initial 1) held
    omega
  have hgrown : roomFor initial held = grow (max initial 1) held := if_neg hfirst
  have hmore : roomFor initial needed = grow (max initial 1) needed := by
    apply if_neg
    omega
  rw [hgrown, hmore, ← grow_grow h, roomFor, hpos]
  split
  · rename_i henough
    rw [grow_of_le henough]
  · rfl

/-- The room is an estimate, and it is the one that the bytes held ask for. -/
structure Roomed (initial : Nat) (w : Writer) : Prop where
  estimates : w.exact = false
  capacity_eq : w.capacity = roomFor initial w.position

theorem roomed_ofCapacity (initial : Nat) : (ofCapacity initial).Roomed initial where
  estimates := rfl
  capacity_eq := (roomFor_zero initial).symm

theorem Roomed.position_le {initial : Nat} {w : Writer} (h : w.Roomed initial) :
    w.position ≤ w.capacity := by
  rw [h.capacity_eq]
  exact le_roomFor initial w.position

@[simp] theorem exact_reserve (w : Writer) (added : Nat) : (w.reserve added).exact = w.exact := by
  simp only [reserve]
  split <;> rfl

@[simp] theorem exact_append (w : Writer) (bytes : List UInt8) : (w.append bytes).exact = w.exact :=
  exact_reserve w bytes.length

theorem capacity_append {w : Writer} (h : w.exact = false) (bytes : List UInt8) :
    (w.append bytes).capacity = roomFor w.capacity (w.position + bytes.length) := by
  change (w.reserve bytes.length).capacity = _
  simp only [reserve, h, Bool.false_eq_true, false_or]
  unfold roomFor position
  by_cases hfits : w.bytes.size + bytes.length ≤ w.capacity
  · rw [if_pos hfits, if_pos hfits]
  · rw [if_neg hfits, if_neg hfits]

theorem Roomed.append {initial : Nat} {w : Writer} (h : w.Roomed initial) (bytes : List UInt8) :
    (w.append bytes).Roomed initial where
  estimates := (exact_append w bytes).trans h.estimates
  capacity_eq := by
    rw [capacity_append h.estimates, h.capacity_eq, position_append,
      roomFor_roomFor (Nat.le_add_right _ _)]

def HasRoom (w : Writer) (added : Nat) : Prop := w.exact = true ∨ w.position + added ≤ w.capacity

theorem hasRoom_reserve {w : Writer} {needed added : Nat} (h : needed ≤ added) :
    (w.reserve added).HasRoom needed := by
  simp only [HasRoom, reserve, position]
  split
  · rename_i hkept
    apply hkept.imp_right
    omega
  · apply Or.inr
    apply (Nat.add_le_add_left h _).trans
    apply (enlarges_grow _ _).needed_le
    omega

theorem reserve_of_hasRoom {w : Writer} {added : Nat} (h : w.HasRoom added) : w.reserve added = w :=
  if_pos h

theorem append_of_hasRoom {w : Writer} {bytes : List UInt8} (h : w.HasRoom bytes.length) :
    w.append bytes = { w with bytes := w.bytes ++ bytes } := by
  simp only [append, reserve_of_hasRoom h]

theorem append_nil_of_hasRoom {w : Writer} (h : w.HasRoom 0) : w.append [] = w := by
  rw [append_of_hasRoom h]
  simp

theorem append_reserve (w : Writer) (bytes : List UInt8) :
    (w.reserve bytes.length).append bytes = w.append bytes := by
  rw [append_of_hasRoom (hasRoom_reserve bytes.length.le_refl)]
  rfl

theorem HasRoom.append {w : Writer} {bytes : List UInt8} {added : Nat}
    (h : w.HasRoom (bytes.length + added)) : (w.append bytes).HasRoom added := by
  have hfirst : w.HasRoom bytes.length := h.imp_right (by omega)
  have hcapacity : (w.append bytes).capacity = w.capacity := by rw [append_of_hasRoom hfirst]
  apply h.imp
  · exact (exact_append w bytes).trans
  · rw [position_append, hcapacity]
    omega

theorem append_append_of_hasRoom {w : Writer} {first second : List UInt8}
    (h : w.HasRoom (first.length + second.length)) :
    (w.append first).append second = w.append (first ++ second) := by
  have hfirst : w.HasRoom first.length := h.imp_right (by omega)
  have hall : w.HasRoom (first ++ second).length := by rwa [List.length_append]
  have hbytes : w.bytes ++ first ++ second = w.bytes ++ (first ++ second) := by
    apply Array.ext'
    simp
  rw [append_of_hasRoom h.append, append_of_hasRoom hfirst, append_of_hasRoom hall, hbytes]

end Writer

namespace Write

def room (added : Nat) : Write Unit := modify fun w => w.reserve added

/-- A text that has room set aside for all of it, and is then written as its count and one unit after the
other. -/
def textByUnits (s : String) : Write Unit :=
  let units := Utf16.encode s.toList
  if units.length ≤ maxUnits then do
    room (textSize s)
    u16 (UInt16.ofNat units.length)
    forM units u16
  else fail (.mismatch [] (.longText units.length))

open Read

theorem run_forM_u16 (units : List UInt16) {w : Writer} (h : w.HasRoom (2 * units.length)) :
    (forM units u16).run.run w = (.ok (), w.append (unitBytes units)) := by
  induction units generalizing w with
  | nil => exact congrArg (Prod.mk _) (Writer.append_nil_of_hasRoom h).symm
  | cons u units ih =>
    have hroom : w.HasRoom ((Bytes.bigEndian 2 u.toNat).length + (unitBytes units).length) := by
      rw [List.length_cons, Nat.mul_succ, Nat.add_comm] at h
      rwa [Bytes.length_bigEndian, length_unitBytes]
    have hfirst : (u16 u).run.run w = (.ok (), w.append (Bytes.bigEndian 2 u.toNat)) := rfl
    have hrest : (w.append (Bytes.bigEndian 2 u.toNat)).HasRoom (2 * units.length) :=
      length_unitBytes units ▸ hroom.append
    rw [List.forM_cons, run_bind, hfirst, unitBytes_cons, ← Writer.append_append_of_hasRoom hroom]
    exact ih hrest

theorem textByUnits_eq (s : String) : textByUnits s = text s := by
  unfold textByUnits text
  by_cases hshort : (Utf16.encode s.toList).length ≤ maxUnits
  · simp only [if_pos hshort]
    have hsize : textSize s = (textBytes (Utf16.encode s.toList)).length :=
      (length_textBytes _).symm
    generalize Utf16.encode s.toList = units at hshort hsize ⊢
    have hcount : (UInt16.ofNat units.length).toNat = units.length :=
      UInt16.toNat_ofNat_of_lt' (Nat.lt_succ_of_le hshort)
    funext w
    have hroom : (w.reserve (textBytes units).length).HasRoom
        ((Bytes.bigEndian 2 units.length).length + (unitBytes units).length) :=
      Writer.hasRoom_reserve List.length_append.ge
    have hunits := hroom.append
    rw [length_unitBytes] at hunits
    calc (room (textSize s) >>= fun _ => u16 (UInt16.ofNat units.length) >>= fun _ =>
          forM units u16).run.run w
        = (u16 (UInt16.ofNat units.length) >>= fun _ => forM units u16).run.run
            (w.reserve (textBytes units).length) := by rw [hsize]; rfl
      _ = (forM units u16).run.run
            ((w.reserve (textBytes units).length).append (Bytes.bigEndian 2 units.length)) := by
          rw [run_bind, u16, hcount]
          rfl
      _ = (.ok (), ((w.reserve (textBytes units).length).append
            (Bytes.bigEndian 2 units.length)).append (unitBytes units)) := run_forM_u16 units hunits
      _ = (.ok (), (w.reserve (textBytes units).length).append (textBytes units)) := by
          rw [Writer.append_append_of_hasRoom hroom]
          rfl
      _ = (.ok (), w.append (textBytes units)) := by rw [Writer.append_reserve]
  · simp only [if_neg hshort]

end Write

namespace Piece

/-- The room behind a call holds the bytes. It is the room in front of the call where that is enough, and
otherwise what the loop makes of it, which comes to an end. -/
structure Attempt.MakesRoom (a : Attempt) : Prop where
  fits : a.after.position ≤ a.after.capacity
  kept : a.after.position ≤ a.before.capacity → a.after.capacity = a.before.capacity
  enlarged : a.before.capacity < a.after.position →
    Writer.Enlarges a.after.position (max a.before.capacity 1) a.after.capacity

section

variable {initial : Nat} {w : Writer}

theorem makesRoom_of_append (h : w.Roomed initial) (p : Piece) (result : Except Failure Unit)
    (held : List UInt8) : (Attempt.mk p w result (w.append held)).MakesRoom where
  fits := (h.append held).position_le
  kept := by
    change (w.append held).position ≤ w.capacity → (w.append held).capacity = w.capacity
    rw [Writer.position_append, Writer.capacity_append h.estimates]
    exact Writer.roomFor_of_le
  enlarged := by
    change w.capacity < (w.append held).position →
      Writer.Enlarges (w.append held).position (max w.capacity 1) (w.append held).capacity
    rw [Writer.position_append, Writer.capacity_append h.estimates]
    exact Writer.enlarges_roomFor

theorem makesRoom_of_unchanged (h : w.Roomed initial) (p : Piece) (result : Except Failure Unit) :
    (Attempt.mk p w result w).MakesRoom where
  fits := h.position_le
  kept _ := rfl
  enlarged hlt := absurd h.position_le (Nat.not_le_of_lt hlt)

theorem roomed_writeEach (pieces : List Piece) (h : w.Roomed initial) :
    (writeEach pieces w).2.Roomed initial ∧
      (∀ a ∈ (writeEach pieces w).1, a.MakesRoom) ∧
      (writeEach pieces w).2.position = w.position +
        (((writeEach pieces w).1.filter Attempt.succeeded).map fun a => a.piece.byteCount).sum := by
  induction pieces generalizing w with
  | nil => exact ⟨h, fun a ha => absurd ha List.not_mem_nil, rfl⟩
  | cons p pieces ih =>
    rcases run_write p w with ⟨-, held, hrun, hlength, -⟩ | ⟨-, failure, hrun⟩
    · obtain ⟨hroomed, hrooms, hposition⟩ := ih (h.append held)
      rw [writeEach_cons hrun]
      refine ⟨hroomed, List.forall_mem_cons.mpr ⟨makesRoom_of_append h p _ held, hrooms⟩, ?_⟩
      rw [List.filter_cons_of_pos rfl, List.map_cons, List.sum_cons, hposition, Writer.position_append,
        hlength, Nat.add_assoc]
    · obtain ⟨hroomed, hrooms, hposition⟩ := ih h
      rw [writeEach_cons hrun]
      refine ⟨hroomed, List.forall_mem_cons.mpr ⟨makesRoom_of_unchanged h p _, hrooms⟩, ?_⟩
      rw [List.filter_cons_of_neg Bool.false_ne_true, hposition]

end

/-- However many bytes are written, and in whatever pieces, a writer that estimates its room ends with the
room that their number asks for: with the room it began with if they fit in there, and otherwise with the
first of its fourfold multiples that holds them, no room counting as one byte. Every call on the way makes
its room in finitely many steps, whatever it writes, and a text makes it once for all of its units. -/
theorem capacity_writeEach (initial : Nat) (pieces : List Piece) : ∃ attempts final held,
    writeEach pieces (Writer.ofCapacity initial) = (attempts, final) ∧
    attempts.map Attempt.piece = pieces ∧ (∀ a ∈ attempts, a.result = .ok () ↔ a.piece.Fits) ∧
    held = ((attempts.filter Attempt.succeeded).map fun a => a.piece.byteCount).sum ∧
    (∀ a ∈ attempts, a.MakesRoom) ∧ final.position = held ∧ held ≤ final.capacity ∧
    (held ≤ initial → final.capacity = initial) ∧
    (initial < held →
      ∃ k, IsLeast {k | held ≤ max initial 1 * 4 ^ k} k ∧ final.capacity = max initial 1 * 4 ^ k) ∧
    ∀ s, (text s).write = Write.textByUnits s := by
  obtain ⟨hroomed, hrooms, hposition⟩ := roomed_writeEach pieces (Writer.roomed_ofCapacity initial)
  have hheld := hposition.trans (Nat.zero_add _)
  refine ⟨_, _, _, rfl, pieces_writeEach pieces _, fun a ha => (attempt_writeEach a ha).1, rfl, hrooms,
    hheld, hheld ▸ hroomed.position_le, ?_, ?_, fun s => (Write.textByUnits_eq s).symm⟩
  · rw [hroomed.capacity_eq, hheld]
    exact Writer.roomFor_of_le
  · rw [hroomed.capacity_eq, hheld]
    exact fun hlt => (Writer.enlarges_roomFor hlt).exists_isLeast

private def growing : List Piece := [.u8 1, .flags (List.replicate 8 true), .text "né"]

/-- Seven bytes come into a writer without room: one, then none, then six at once. -/
theorem capacity_writeEach_growing :
    (writeEach growing (Writer.ofCapacity 0)).2.toList = [1, 0, 2, 0, 110, 0, 233] ∧
      (writeEach growing (Writer.ofCapacity 0)).2.capacity = 16 ∧
      ∀ a ∈ (writeEach growing (Writer.ofCapacity 0)).1, a.MakesRoom := by
  obtain ⟨attempts, final, held, hrun, -, -, hheld, hrooms, -, -, -, hgrown, -⟩ :=
    capacity_writeEach 0 growing
  cases hrun
  obtain rfl : held = 7 := hheld
  obtain ⟨k, hleast, hcapacity⟩ := hgrown (by decide)
  have htwo : IsLeast {k | 7 ≤ max 0 1 * 4 ^ k} 2 := by
    refine ⟨by decide, fun j hj => ?_⟩
    by_contra hlt
    have hsmall : j = 0 ∨ j = 1 := by omega
    rcases hsmall with rfl | rfl <;> exact absurd hj (by decide)
  obtain rfl := hleast.unique htwo
  exact ⟨by decide +kernel, hcapacity, hrooms⟩

end Piece

end WireSchema
