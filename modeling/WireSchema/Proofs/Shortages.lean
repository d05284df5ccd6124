import WireSchema.Proofs.Bounds
import WireSchema.Proofs.Scripts
import WireSchema.Proofs.Texts

/-! A reader that asks once, and finds too few bytes, leaves its cursor where it stands. A text is asked
for twice: when its units are missing, its count is gone already. -/

namespace WireSchema

namespace Read

variable {α β : Type}

def Stays (m : Read α) : Prop :=
  ∀ c needed available c', m.run.run c = (.error (.outOfBounds needed available), c') →
    c' = c ∧ available = c.remaining ∧ available < needed

theorem stays_bytes (count : Nat) : (bytes count).Stays := by
  intro c needed available c' hrun
  rw [run_bytes] at hrun
  split at hrun
  · cases hrun
  · rename_i hshort
    cases hrun
    refine ⟨rfl, rfl, ?_⟩
    rw [List.length_take] at hshort
    rw [Cursor.remaining]
    omega

theorem Stays.map {m : Read α} (f : α → β) (h : m.Stays) : (f <$> m).Stays := by
  intro c needed available c' hrun
  rw [run_map] at hrun
  rcases hm : m.run.run c with ⟨failure | a, c₁⟩
  · rw [hm] at hrun
    cases hrun
    exact h c _ _ _ hm
  · rw [hm] at hrun
    cases hrun

theorem stays_word (width : Nat) : (word width).Stays := (stays_bytes width).map _

/-- A text whose count can be read leaves the cursor behind the count. -/
theorem cursor_of_text_outOfBounds {c c' : Cursor} {needed available : Nat}
    (hrun : text.run.run c = (.error (.outOfBounds needed available), c')) :
    available = c'.remaining ∧ available < needed ∧
      (c.remaining < 2 ∧ c' = c ∨
        2 ≤ c.remaining ∧ c' = ⟨c.position + 2, c.rest.drop 2⟩) := by
  rcases textAhead_cases c with hcount | ⟨high, low, body, hrest, hbody⟩ | ⟨_, _, body, _, hahead⟩
  · rw [run_text_of_no_count hcount] at hrun
    cases hrun
    exact ⟨rfl, hcount, Or.inl ⟨hcount, rfl⟩⟩
  · obtain ⟨position, ahead⟩ := c
    subst hrest
    rw [run_text_of_missing position hbody] at hrun
    cases hrun
    exact ⟨rfl, hbody, Or.inr ⟨by simp [Cursor.remaining], rfl⟩⟩
  · rw [hahead.run_text] at hrun
    cases hunits : Utf16.decode? (units body) <;> rw [hunits] at hrun <;> cases hrun

end Read

open Read

namespace Piece

theorem Kind.stays_read : ∀ {kind : Kind}, kind ≠ .text → kind.read.Stays
  | .u8, _ => ((stays_word 1).map _).map _
  | .u16, _ => ((stays_word 2).map _).map _
  | .u32, _ => ((stays_word 4).map _).map _
  | .i8, _ => (((stays_word 1).map _).map _).map _
  | .i16, _ => (((stays_word 2).map _).map _).map _
  | .i32, _ | .f32, _ => (((stays_word 4).map _).map _).map _
  | .f64, _ => ((stays_word 8).map _).map _
  | .bool, _ | .flags, _ => (((stays_word 1).map _).map _).map _
  | .bytes count, _ => (stays_bytes count).map _
  | .text, h => absurd rfl h

theorem Kind.requesting_read : ∀ kind : Kind, kind.read.Requesting
  | .u8 => requesting_u8.map _
  | .u16 => requesting_u16.map _
  | .u32 => requesting_u32.map _
  | .i8 => (requesting_u8.map _).map _
  | .i16 => (requesting_u16.map _).map _
  | .i32 | .f32 => (requesting_u32.map _).map _
  | .f64 => ((requesting_word 8).map _).map _
  | .bool | .flags => (requesting_u8.map _).map _
  | .bytes count => (requesting_bytes count).map _
  | .text => requesting_text.map _

theorem Kind.exists_position_read (kind : Kind) {buffer : List UInt8} {position : Nat}
    (h : position ≤ buffer.length) : ∃ result stop, position ≤ stop ∧ stop ≤ buffer.length ∧
      kind.read.run.run (Cursor.ofPosition buffer position) =
        (result, Cursor.ofPosition buffer stop) := by
  obtain ⟨program, hprogram⟩ := kind.requesting_read
  obtain ⟨result, stop, -, hforward, hinside, hrun⟩ := program.run?_eq h
  exact ⟨result, stop, hforward, hinside, hprogram ▸ hrun⟩

theorem Kind.cursor_of_outOfBounds {kind : Kind} {c c' : Cursor} {needed available : Nat}
    (hrun : kind.read.run.run c = (.error (.outOfBounds needed available), c')) :
    available = c'.remaining ∧ available < needed ∧
      (¬(kind = .text ∧ 2 ≤ c.remaining) ∧ c' = c ∨
        (kind = .text ∧ 2 ≤ c.remaining) ∧ c' = ⟨c.position + 2, c.rest.drop 2⟩) := by
  by_cases htext : kind = .text
  · subst htext
    rw [Kind.read, run_map] at hrun
    rcases hm : Read.text.run.run c with ⟨failure | s, c₁⟩
    · rw [hm] at hrun
      cases hrun
      obtain ⟨havailable, hlt, hshort | hcount⟩ := cursor_of_text_outOfBounds hm
      · exact ⟨havailable, hlt, Or.inl ⟨fun h => absurd h.2 (by omega), hshort.2⟩⟩
      · exact ⟨havailable, hlt, Or.inr ⟨⟨rfl, hcount.1⟩, hcount.2⟩⟩
    · rw [hm] at hrun
      cases hrun
  · obtain ⟨rfl, havailable, hlt⟩ := Kind.stays_read htext c needed available c' hrun
    exact ⟨havailable, hlt, Or.inl ⟨fun h => htext h.1, rfl⟩⟩

theorem exists_position_readEach (buffer : List UInt8) (kinds : List Kind) {position : Nat}
    (h : position ≤ buffer.length) : ∃ stop, position ≤ stop ∧ stop ≤ buffer.length ∧
      (readEach kinds (Cursor.ofPosition buffer position)).2 = Cursor.ofPosition buffer stop := by
  induction kinds generalizing position with
  | nil => exact ⟨position, le_refl _, h, rfl⟩
  | cons kind rest ih =>
    obtain ⟨result, middle, hforward, hinside, hrun⟩ := kind.exists_position_read h
    obtain ⟨stop, hforward', hinside', hrest⟩ := ih hinside
    exact ⟨stop, hforward.trans hforward', hinside', by rw [readEach_cons hrun, hrest]⟩

/-- After any reads from a buffer, a read that lacks bytes leaves the cursor at its position and so with
what it had ahead. The one exception is a text whose count is there and whose units are not: the cursor then
stands behind the count, two bytes further on. -/
theorem outOfBounds_keeps_position (buffer : List UInt8) (earlier : List Kind) :
    ∃ position ≤ buffer.length,
      (readEach earlier (Cursor.ofBytes buffer)).2 = Cursor.ofPosition buffer position ∧
      ∀ (kind : Kind) (needed available : Nat) (after : Cursor),
        kind.read.run.run (Cursor.ofPosition buffer position) =
          (.error (.outOfBounds needed available), after) →
        available = after.remaining ∧ available < needed ∧
        (¬(kind = .text ∧ position + 2 ≤ buffer.length) →
          after.position = position ∧ after.remaining = buffer.length - position) ∧
        (kind = .text ∧ position + 2 ≤ buffer.length →
          after.position = position + 2 ∧ after.remaining = buffer.length - (position + 2)) := by
  obtain ⟨position, -, hinside, hearlier⟩ := exists_position_readEach buffer earlier (Nat.zero_le _)
  refine ⟨position, hinside, hearlier, fun kind needed available after hrun => ?_⟩
  have hahead : (Cursor.ofPosition buffer position).remaining = buffer.length - position :=
    List.length_drop
  have hcount : 2 ≤ (Cursor.ofPosition buffer position).remaining ↔ position + 2 ≤ buffer.length := by
    omega
  obtain ⟨havailable, hlt, hcursor⟩ := Kind.cursor_of_outOfBounds hrun
  rw [hcount] at hcursor
  refine ⟨havailable, hlt, ?_⟩
  rcases hcursor with ⟨hno, rfl⟩ | ⟨htext, rfl⟩
  · exact ⟨fun _ => ⟨rfl, hahead⟩, fun h => absurd h hno⟩
  · refine ⟨fun h => absurd htext h, fun _ => ⟨rfl, ?_⟩⟩
    rw [Cursor.remaining, Cursor.ofPosition, List.drop_drop, List.length_drop]

private def cut : List UInt8 := [9, 0, 4, 0, 97]

/-- Behind a byte, and a long number that is missing, a long number is still missing there. The text that is
announced there is cut short. -/
theorem outOfBounds_keeps_position_cut : ∃ after after',
    (readEach [.u8, .f64] (Cursor.ofBytes cut)).2 = Cursor.ofPosition cut 1 ∧
      Kind.f64.read.run.run (Cursor.ofPosition cut 1) = (.error (.outOfBounds 8 4), after) ∧
      (after.position = 1 ∧ after.remaining = 4) ∧
      Kind.text.read.run.run (Cursor.ofPosition cut 1) = (.error (.outOfBounds 8 2), after') ∧
      after'.position = 3 ∧ after'.remaining = 2 := by
  obtain ⟨position, -, hearlier, hnext⟩ := outOfBounds_keeps_position cut [.u8, .f64]
  obtain rfl : 1 = position := congrArg Cursor.position hearlier
  have hnumber : Kind.f64.read.run.run (Cursor.ofPosition cut 1) =
    (.error (.outOfBounds 8 4), ⟨1, [0, 4, 0, 97]⟩) := rfl
  have htext : Kind.text.read.run.run (Cursor.ofPosition cut 1) =
    (.error (.outOfBounds 8 2), ⟨3, [0, 97]⟩) := rfl
  refine ⟨_, _, hearlier, hnumber, ?_, htext, ?_⟩
  · exact (hnext _ _ _ _ hnumber).2.2.1 fun h => Kind.noConfusion h.1
  · exact (hnext _ _ _ _ htext).2.2.2 ⟨rfl, by decide⟩

/-- Four units are announced and one is there. -/
theorem text_moves_when_outOfBounds :
    ¬∀ (buffer : List UInt8) (earlier : List Kind) (kind : Kind) (needed available : Nat)
      (before after : Cursor), (readEach earlier (Cursor.ofBytes buffer)).2 = before →
      kind.read.run.run before = (.error (.outOfBounds needed available), after) →
      after.position = before.position ∧ after.remaining = before.remaining := by
  intro hstays
  have hmoved := hstays [0, 4, 0, 97] [] .text 8 2 (Cursor.ofBytes [0, 4, 0, 97]) ⟨2, [0, 97]⟩ rfl rfl
  cases hmoved.1

end Piece

end WireSchema
