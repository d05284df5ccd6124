import WireSchema.Proofs.Streams
import WireSchema.Layout.Read

/-! What a reader asks for next it makes of the bytes it was given. So what holds of asking for bytes,
and passes from one request to the next, holds of every reader. -/

namespace WireSchema

inductive Requests (α : Type) where
  | done (result : Except Failure α)
  | take (count : Nat) (next : List UInt8 → Requests α)

namespace Requests

variable {α β : Type}

def toRead : Requests α → Read α
  | done result => ExceptT.mk (pure result)
  | take count next => do
    let taken ← Read.bytes count
    (next taken).toRead

def bind (program : Requests α) (f : α → Requests β) : Requests β :=
  match program with
  | done (.ok a) => f a
  | done (.error failure) => done (.error failure)
  | take count next => take count fun taken => (next taken).bind f

theorem toRead_bind (program : Requests α) (f : α → Requests β) :
    (program.bind f).toRead = program.toRead >>= fun a => (f a).toRead := by
  induction program with
  | done result => cases result <;> rfl
  | take count next ih =>
    simp only [bind, toRead, ih, bind_assoc]

end Requests

namespace Read

variable {α β : Type}

/-- Touches the bytes by asking for them only. -/
def Requesting (m : Read α) : Prop := ∃ program : Requests α, program.toRead = m

theorem requesting_ofExcept (result : Except Failure α) :
    Requesting (ExceptT.mk (pure result) : Read α) := ⟨.done result, rfl⟩

theorem requesting_pure (a : α) : (pure a : Read α).Requesting := requesting_ofExcept (.ok a)

theorem requesting_fail (failure : Failure) : (fail failure : Read α).Requesting :=
  requesting_ofExcept (.error failure)

theorem requesting_bytes (count : Nat) : (bytes count).Requesting :=
  ⟨.take count fun taken => .done (.ok taken), bind_pure (bytes count)⟩

theorem Requesting.bind {m : Read α} {k : α → Read β} (hm : m.Requesting)
    (hk : ∀ a, (k a).Requesting) : (m >>= k).Requesting := by
  obtain ⟨program, rfl⟩ := hm
  choose programs hprograms using hk
  refine ⟨program.bind programs, ?_⟩
  rw [Requests.toRead_bind]
  congr 1
  funext a
  exact hprograms a

theorem Requesting.map {m : Read α} (f : α → β) (h : m.Requesting) : (f <$> m).Requesting := by
  rw [map_eq_pure_bind]
  exact h.bind fun a => requesting_pure (f a)

theorem requesting_word (width : Nat) : (word width).Requesting := (requesting_bytes width).map _

theorem requesting_u8 : u8.Requesting := (requesting_word 1).map _

theorem requesting_u16 : u16.Requesting := (requesting_word 2).map _

theorem requesting_u32 : u32.Requesting := (requesting_word 4).map _

theorem requesting_text : text.Requesting := by
  apply requesting_u16.bind
  intro count
  apply (requesting_bytes _).bind
  intro taken
  split
  · exact requesting_pure _
  · exact requesting_fail _

theorem Requesting.repeated {m : Read α} (h : m.Requesting) (done : List α) (count : Nat) :
    (Read.repeated m done count).Requesting := by
  induction count generalizing done with
  | zero => exact requesting_pure _
  | succ count ih => exact h.bind fun a => ih (a :: done)

end Read

open Read

theorem Scalar.requesting_read (type : Scalar) : type.read.Requesting := by
  cases type with
  | uint8 => exact requesting_u8.map _
  | uint16 => exact requesting_u16.map _
  | uint32 => exact requesting_u32.map _
  | int8 => exact (requesting_u8.map _).map _
  | int16 => exact (requesting_u16.map _).map _
  | int32 | float32 => exact (requesting_u32.map _).map _
  | float64 => exact ((requesting_word 8).map _).map _
  | boolean => exact (requesting_u8.map _).map _
  | string => exact requesting_text.map _

namespace Layout

theorem requesting_readCount (count : CountWidth) : (readCount count).Requesting := by
  cases count with
  | one => exact requesting_u8.map _
  | two => exact requesting_u16.map _

theorem requesting_readLabel {α : Type} (table : LabelTable α) (unknown : UInt8 → Undeclared) :
    (readLabel table unknown).Requesting := by
  apply requesting_u8.bind
  intro byte
  split
  · exact requesting_pure _
  · exact requesting_fail _

theorem requesting_readFlags (names : List String) : (readFlags names).Requesting := by
  apply (requesting_u8.map _).bind
  intro set
  split
  · exact requesting_pure _
  · exact requesting_fail _

end Layout

end WireSchema
