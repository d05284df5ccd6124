import WireSchema.Proofs.Reading
import WireSchema.Proofs.Requests

/-! Reading a value needs all of its bytes and none of those behind them, so no buffer of a value begins
another one. -/

namespace WireSchema

namespace Read

variable {α β : Type}

/-- Fails because it asks for more bytes than are left. -/
def RunsOut (m : Read α) (c : Cursor) : Prop :=
  ∃ needed available c', available < needed ∧
    m.run.run c = (.error (.outOfBounds needed available), c')

/-- Where it succeeds in front of some missing bytes, it succeeds without them in the same way, or runs
out. So the cut alone makes it fail, never what stands in front of the cut. -/
def Incremental (m : Read α) : Prop :=
  ∀ position front missing a position' rest,
    m.run.run ⟨position, front ++ missing⟩ = (.ok a, ⟨position', rest⟩) →
    m.RunsOut ⟨position, front⟩ ∨
      ∃ rest', rest = rest' ++ missing ∧ m.run.run ⟨position, front⟩ = (.ok a, ⟨position', rest'⟩)

theorem RunsOut.bind {m : Read α} {c : Cursor} (h : m.RunsOut c) (k : α → Read β) :
    (m >>= k).RunsOut c := by
  obtain ⟨needed, available, c', hlt, hrun⟩ := h
  refine ⟨needed, available, c', hlt, ?_⟩
  rw [run_bind, hrun]

theorem RunsOut.after {m : Read α} {k : α → Read β} {c c₁ : Cursor} {a : α}
    (hm : m.run.run c = (.ok a, c₁)) (h : (k a).RunsOut c₁) : (m >>= k).RunsOut c := by
  obtain ⟨needed, available, c', hlt, hrun⟩ := h
  refine ⟨needed, available, c', hlt, ?_⟩
  rw [run_bind, hm]
  exact hrun

theorem Incremental.bind {m : Read α} {k : α → Read β} (hm : m.Incremental)
    (hk : ∀ a, (k a).Incremental) : (m >>= k).Incremental := by
  intro position front missing b position' rest hrun
  rw [run_bind] at hrun
  rcases hfirst : m.run.run ⟨position, front ++ missing⟩ with ⟨failure | a, ⟨position₁, rest₁⟩⟩
  · rw [hfirst] at hrun
    cases hrun
  · rw [hfirst] at hrun
    rcases hm _ _ _ _ _ _ hfirst with hout | ⟨front₁, rfl, hshort⟩
    · exact Or.inl (hout.bind k)
    -- The first step is the same without the missing bytes, so the second starts in front of them.
    rcases hk a _ _ _ _ _ _ hrun with hout | ⟨rest', rfl, hshort'⟩
    · exact Or.inl (hout.after hshort)
    · refine Or.inr ⟨rest', rfl, ?_⟩
      rw [run_bind, hshort]
      exact hshort'

theorem incremental_pure (a : α) : (pure a : Read α).Incremental := by
  intro position front missing b position' rest hrun
  cases hrun
  exact Or.inr ⟨front, rfl, rfl⟩

theorem incremental_fail (failure : Failure) : (fail failure : Read α).Incremental := by
  intro position front missing a position' rest hrun
  cases hrun

theorem Incremental.map {m : Read α} (f : α → β) (h : m.Incremental) : (f <$> m).Incremental := by
  rw [map_eq_pure_bind]
  exact h.bind fun a => incremental_pure (f a)

theorem incremental_bytes (count : Nat) : (bytes count).Incremental := by
  intro position front missing taken position' rest hrun
  by_cases hcount : count ≤ front.length
  · have htake : (front ++ missing).take count = front.take count :=
      List.take_append_of_le_length hcount
    have hdrop : (front ++ missing).drop count = front.drop count ++ missing :=
      List.drop_append_of_le_length hcount
    have hlength : (front.take count).length = count := List.length_take_of_le hcount
    rw [run_bytes, htake, if_pos hlength, hdrop] at hrun
    cases hrun
    refine Or.inr ⟨front.drop count, rfl, ?_⟩
    rw [run_bytes, if_pos hlength]
  · refine Or.inl ⟨count, front.length, ⟨position, front⟩, Nat.lt_of_not_le hcount, ?_⟩
    have hlength : (front.take count).length ≠ count := by
      rw [List.length_take]
      omega
    rw [run_bytes, if_neg hlength]
    rfl

/-- Asking for bytes is all that a reader can do, so being incremental passes from its requests to it. -/
theorem Requesting.incremental {m : Read α} (h : m.Requesting) : m.Incremental := by
  obtain ⟨program, rfl⟩ := h
  induction program with
  | done result =>
    cases result with
    | ok a => exact incremental_pure a
    | error failure => exact incremental_fail failure
  | take count next ih => exact (incremental_bytes count).bind ih

theorem Incremental.repeated {m : Read α} (h : m.Incremental) (done : List α) (count : Nat) :
    (Read.repeated m done count).Incremental := by
  induction count generalizing done with
  | zero => exact incremental_pure _
  | succ count ih => exact h.bind fun a => ih (a :: done)

/-- What is read from all of some bytes runs out on every part cut off from them. -/
theorem Incremental.runsOut {m : Read α} (h : m.Incremental) {front missing : List UInt8} {a : α}
    (hm : m.Yields (front ++ missing) a) (hmissing : missing ≠ []) (position : Nat) :
    m.RunsOut ⟨position, front⟩ := by
  rcases h _ _ _ _ _ _ (hm.run position) with hout | ⟨rest, hrest, -⟩
  · exact hout
  · exact absurd (List.append_eq_nil_iff.mp hrest.symm).2 hmissing

end Read

open Read

namespace Layout

section

variable {E : Extension → Prop} {discriminant : String}

mutual

/-- A layout reads incrementally if the custom types in it do. -/
theorem incremental_read (hE : ∀ e, E e → e.read.Incremental) : ∀ {schema : Schema} {layout : Layout},
    Compiles E discriminant schema layout → layout.read.Incremental
  | _, _, .scalar type => type.requesting_read.incremental
  | _, _, .extension _ he => hE _ he
  | _, _, .enum _ | _, _, .numberEnum _ => (requesting_readLabel _ _).incremental.map _
  | _, _, .bitmask _ => (requesting_readFlags _).incremental
  | _, _, .optional _ h => by
    refine requesting_u8.incremental.bind fun presence => ?_
    split
    · exact incremental_pure _
    split
    · exact incremental_read hE h
    · exact incremental_fail _
  | _, _, .array h =>
    (requesting_readCount _).incremental.bind fun length =>
      ((incremental_read hE h).repeated [] length).map _
  | _, _, .union _ _ _ h =>
    requesting_u8.incremental.bind fun index => incremental_readVariant hE h index _
  | _, _, .record _ h => (incremental_readFields hE h []).map _

theorem incremental_readFields (hE : ∀ e, E e → e.read.Incremental) :
    ∀ {schemas : List (String × Schema)} {layouts : List (String × Layout)},
    CompilesFields E discriminant schemas layouts → ∀ fields, (readFields layouts fields).Incremental
  | _, _, .nil, fields => incremental_pure fields
  | _, _, .cons h hs, _ => (incremental_read hE h).bind fun _ => incremental_readFields hE hs _

theorem incremental_readVariant (hE : ∀ e, E e → e.read.Incremental) :
    ∀ {variants : List (String × List (String × Schema))}
    {layouts : List (VariantKey × List (String × Layout))},
    CompilesVariants E discriminant variants layouts →
    ∀ index place, (readVariant discriminant index layouts place).Incremental
  | _, _, .nil, _, _ => incremental_fail _
  | _, _, .cons _ h _, _, 0 => (incremental_readFields hE h _).map _
  | _, _, .cons _ _ hs, index, place + 1 => incremental_readVariant hE hs index place

end

end

end Layout

namespace Codec

variable {types : Extensions} {discriminant : String} {schema : Schema} {c : Codec}

/-- A buffer of a value runs out of bytes wherever it is cut, is refused for its end if it goes on, and
begins no other buffer of a value. Where a value is read from the front of a buffer, what follows its
bytes does not matter and stays unread. -/
theorem decode_cut_or_extended (h : ofSchema types discriminant schema = .ok c) (hplain : c.IsPlain)
    {bytes : List UInt8} {v : Value} (hdecode : c.decode bytes = .ok v) :
    (∀ front, front <+: bytes → front ≠ bytes → ∃ needed available, available < needed ∧
      c.decode front = .error (.outOfBounds needed available)) ∧
    (∀ rest, rest ≠ [] →
      c.decode (bytes ++ rest) =
        .error (.trailingBytes bytes.length (bytes.length + rest.length)) ∧
      c.decodeFrom (Cursor.ofBytes (bytes ++ rest)) = (.ok v, ⟨bytes.length, rest⟩)) ∧
    ∀ bytes' v', c.decode bytes' = .ok v' → bytes <+: bytes' → bytes = bytes' := by
  have hyields := (decode_eq_ok_iff (hplain.compiles h)).mp hdecode
  have hincremental : c.layout.read.Incremental :=
    Layout.incremental_read (fun _ he => he.elim) (hplain.compiles (E := fun _ => False) h)
  have hextended : ∀ rest, c.decodeFrom (Cursor.ofBytes (bytes ++ rest)) =
      (.ok v, ⟨bytes.length, rest⟩) := by
    intro rest
    have hrun := hyields 0 rest
    rwa [Nat.zero_add] at hrun
  have htrailing : ∀ rest, rest ≠ [] → c.decode (bytes ++ rest) =
      .error (.trailingBytes bytes.length (bytes.length + rest.length)) := by
    intro rest hrest
    have hleft : ¬rest.isEmpty = true := by rwa [List.isEmpty_iff]
    rw [decode_eq, hextended, Cursor.checkEnd, if_neg hleft]
    rfl
  refine ⟨?_, fun rest hrest => ⟨htrailing rest hrest, hextended rest⟩, ?_⟩
  · rintro front ⟨missing, rfl⟩ hne
    have hmissing : missing ≠ [] := by
      rintro rfl
      exact hne (List.append_nil front).symm
    obtain ⟨needed, available, c', hlt, hrun⟩ := hincremental.runsOut hyields hmissing 0
    refine ⟨needed, available, hlt, ?_⟩
    have hfrom : c.decodeFrom (Cursor.ofBytes front) = (.error (.outOfBounds needed available), c') :=
      hrun
    rw [decode_eq, hfrom]
    rfl
  · rintro _ v' hdecode' ⟨rest, rfl⟩
    by_cases hrest : rest = []
    · rw [hrest, List.append_nil]
    · rw [htrailing rest hrest] at hdecode'
      cases hdecode'

private def names : Schema := .array .one (.record [("name", .scalar .string)])

private def namesCodec : Codec :=
  .ofLayout ∅ names (.array .one (.record [("name", .scalar .string)]))

/-- One name of one letter: cut inside the letter, and with a byte behind it. -/
theorem decode_cut_or_extended_names :
    ofSchema ∅ "type" names = .ok namesCodec ∧ namesCodec.IsPlain ∧
      namesCodec.decode [1, 0, 1, 0, 104] = .ok (.array [.object [("name", .string "h")]]) ∧
      namesCodec.decode [1, 0, 1, 0] = .error (.outOfBounds 2 1) ∧
      (∃ needed available, available < needed ∧
        namesCodec.decode [1, 0, 1, 0] = .error (.outOfBounds needed available)) ∧
      namesCodec.decode [1, 0, 1, 0, 104, 7] = .error (.trailingBytes 5 6) := by
  have hcodec : ofSchema ∅ "type" names = .ok namesCodec := rfl
  have hplain : namesCodec.IsPlain := isPlain_of_empty hcodec
  have hdecode : namesCodec.decode [1, 0, 1, 0, 104] =
    .ok (.array [.object [("name", .string "h")]]) := rfl
  obtain ⟨hcut, hextended, -⟩ := decode_cut_or_extended hcodec hplain hdecode
  exact ⟨hcodec, hplain, hdecode, rfl, hcut [1, 0, 1, 0] ⟨[104], rfl⟩ (by decide),
    (hextended [7] (by decide)).1⟩

end Codec

end WireSchema
