import WireSchema.Proofs.Refusals
import WireSchema.Proofs.Requests

/-! Every request of a reader is answered from inside the buffer, and the position only moves forward.
Nothing here needs the schema to be valid. -/

namespace WireSchema

namespace Buffer

def remaining? (buffer : List UInt8) (position : Nat) : Option Nat :=
  if position ≤ buffer.length then some (buffer.length - position) else none

def slice? (buffer : List UInt8) (start stop : Nat) : Option (List UInt8) :=
  if start ≤ stop ∧ stop ≤ buffer.length then some ((buffer.take stop).drop start) else none

/-- The next `count` bytes and the position behind them, or a failure that leaves the position where it
is. No answer at all stands for a count or a slice that does not exist. -/
def take? (buffer : List UInt8) (position count : Nat) :
    Option (Except Failure (List UInt8) × Nat) := do
  let available ← remaining? buffer position
  if available < count then return (.error (.outOfBounds count available), position)
  else return (.ok (← slice? buffer position (position + count)), position + count)

theorem take?_eq {buffer : List UInt8} {position : Nat} (h : position ≤ buffer.length) (count : Nat) :
    ∃ result stop, take? buffer position count = some (result, stop) ∧
      position ≤ stop ∧ stop ≤ buffer.length ∧
      (Read.bytes count).run.run ⟨position, buffer.drop position⟩ =
        (result, ⟨stop, buffer.drop stop⟩) := by
  have htake : ((buffer.drop position).take count).length = min count (buffer.length - position) := by
    rw [List.length_take, List.length_drop]
  simp only [take?, remaining?, if_pos h, Option.bind_eq_bind, Option.bind_some, Read.run_bytes]
  by_cases hcount : buffer.length - position < count
  · refine ⟨_, position, if_pos hcount, le_refl _, h, ?_⟩
    rw [if_neg (by omega), Cursor.remaining, List.length_drop]
  · have hslice : slice? buffer position (position + count) = some ((buffer.drop position).take count) := by
      rw [slice?, if_pos (by omega), List.take_drop]
    refine ⟨.ok ((buffer.drop position).take count), position + count, ?_, by omega, by omega, ?_⟩
    · rw [if_neg hcount, hslice]
      rfl
    · rw [if_pos (by omega), List.drop_drop]

end Buffer

namespace Requests

variable {α : Type}

/-- Runs the requests on a buffer, from a position in it. No answer stands for a request that reaches
outside the buffer. -/
def run? (buffer : List UInt8) : Requests α → Nat → Option (Except Failure α × Nat)
  | done result, position => some (result, position)
  | take count next, position => do
    match ← Buffer.take? buffer position count with
    | (.ok taken, stop) => (next taken).run? buffer stop
    | (.error failure, stop) => some (.error failure, stop)

theorem run?_eq (program : Requests α) {buffer : List UInt8} {position : Nat}
    (h : position ≤ buffer.length) : ∃ result stop,
      program.run? buffer position = some (result, stop) ∧ position ≤ stop ∧ stop ≤ buffer.length ∧
      program.toRead.run.run ⟨position, buffer.drop position⟩ = (result, ⟨stop, buffer.drop stop⟩) := by
  induction program generalizing position with
  | done result => exact ⟨result, position, rfl, le_refl _, h, rfl⟩
  | take count next ih =>
    obtain ⟨result, middle, hrequest, hforward, hinside, hbytes⟩ := Buffer.take?_eq h count
    simp only [run?, toRead, run_bind, hrequest, hbytes, Option.bind_eq_bind, Option.bind_some]
    cases result with
    | error failure => exact ⟨_, middle, rfl, hforward, hinside, rfl⟩
    | ok taken =>
      obtain ⟨result, stop, hrun, hforward', hinside', hread⟩ := ih taken hinside
      exact ⟨result, stop, hrun, hforward.trans hforward', hinside', hread⟩

end Requests

open Read

namespace Layout

mutual

theorem Contained.requesting_read : ∀ {layout : Layout}, Contained layout → layout.read.Requesting
  | _, .scalar type => type.requesting_read
  | _, .enum table => (requesting_readLabel table _).map _
  | _, .numberEnum table => (requesting_readLabel table _).map _
  | _, .bitmask names => requesting_readFlags names
  | _, .optional h => by
    rw [read]
    apply requesting_u8.bind
    intro presence
    split
    · exact requesting_pure _
    · split
      · exact h.requesting_read
      · exact requesting_fail _
  | _, .array h => by
    rw [read]
    apply (requesting_readCount _).bind
    intro length
    exact (h.requesting_read.repeated [] length).map _
  | _, .union _ h => by
    rw [read]
    apply requesting_u8.bind
    intro index
    exact h.requesting_readVariant _ index index.toNat
  | _, .record h => (h.requesting_readFields []).map _

theorem FieldsContained.requesting_readFields : ∀ {layouts : List (String × Layout)},
    FieldsContained layouts → ∀ fields, (readFields layouts fields).Requesting
  | _, .nil, _ => requesting_pure _
  | _, .cons h hs, _ => h.requesting_read.bind fun _ => hs.requesting_readFields _

theorem VariantsContained.requesting_readVariant : ∀ {variants : List (VariantKey × List (String × Layout))},
    VariantsContained variants → ∀ discriminant index place,
    (readVariant discriminant index variants place).Requesting
  | _, .nil, _, _, _ => requesting_fail _
  | _, .cons h _, _, _, 0 => (h.requesting_readFields _).map _
  | _, .cons _ hs, discriminant, index, place + 1 =>
    hs.requesting_readVariant discriminant index place

end

theorem not_isRefusal_variant (index : UInt8) :
    ¬(Failure.undeclared (.variant index)).IsRefusal := fun h => nomatch h

/-- Every tag of the layout leads into its variants and so sizing and writing never leave them. Reading
runs on any buffer from any position in it, inside the buffer and never backwards. -/
theorem contained_and_in_bounds {types : Extensions} {discriminant : String} {schema : Schema}
    {layout : Layout} (h : ofSchema types discriminant schema = .ok layout)
    (hplain : layout.extensionNames = []) :
    Contained layout ∧
      (∀ v index, layout.size v ≠ .error (.undeclared (.variant index))) ∧
      (∀ v (w : Writer) index, ((layout.write v).run.run w).1 ≠ .error (.undeclared (.variant index))) ∧
      ∃ program : Requests Value, program.toRead = layout.read ∧
        ∀ (buffer : List UInt8) (position : Nat), position ≤ buffer.length → ∃ result stop,
          program.run? buffer position = some (result, stop) ∧
          position ≤ stop ∧ stop ≤ buffer.length ∧
          layout.read.run.run ⟨position, buffer.drop position⟩ = (result, ⟨stop, buffer.drop stop⟩) := by
  have hcontained := contained_of_ofSchema h hplain
  obtain ⟨program, hprogram⟩ := hcontained.requesting_read
  refine ⟨hcontained, ?_, ?_, program, hprogram, ?_⟩
  · intro v index hsize
    exact not_isRefusal_variant index (hcontained.refuses_size v _ hsize)
  · intro v w index hwrite
    exact not_isRefusal_variant index (hcontained.refuses_write v w _ hwrite)
  · intro buffer position hposition
    rw [← hprogram]
    exact program.run?_eq hposition

private def manyFlags : List (String × Int64) :=
  [("p", 7), ("q", 7), ("r", -3), ("s", 0), ("t", 1), ("u", 2), ("v", 3), ("w", 900)]

/-- Two variants of one tag, ordinals that are no bytes and more flags than a byte can tell. -/
private def tangled : Schema :=
  .union [("a", [("n", .enum [("x", 300), ("y", -1)])]), ("a", [("set", .bitmask manyFlags)])]

private def tangledLayout : Layout :=
  .union "type" [(⟨"a", 0⟩, [("n", .enum (.ofList [("x", 44), ("y", 255)]))]),
    (⟨"a", 1⟩, [("set", .bitmask (orderedFlags manyFlags))])] [("a", 1)]

theorem contained_and_in_bounds_tangled :
    (tangled.check ∅ "type").toOption = none ∧ ofSchema ∅ "type" tangled = .ok tangledLayout ∧
      tangledLayout.extensionNames = [] ∧ Contained tangledLayout ∧
      ∃ result stop, 1 ≤ stop ∧ stop ≤ 4 ∧
        tangledLayout.read.run.run ⟨1, [0, 44, 1]⟩ = (result, ⟨stop, [9, 0, 44, 1].drop stop⟩) := by
  have hlayout : ofSchema ∅ "type" tangled = .ok tangledLayout := rfl
  obtain ⟨hcontained, -, -, program, -, hrun⟩ := contained_and_in_bounds hlayout rfl
  obtain ⟨result, stop, -, hforward, hinside, hread⟩ := hrun [9, 0, 44, 1] 1 (by decide)
  exact ⟨rfl, hlayout, rfl, hcontained, result, stop, hforward, hinside, hread⟩

end Layout

end WireSchema
