import WireSchema.Proofs.Messages

/-! Pieces need no separators and no names: reading pieces of the same kinds in the same order gives
them back. A piece that is refused leaves no trace. -/

namespace WireSchema

theorem Writer.position_eq_length (w : Writer) : w.position = w.toList.length :=
  w.bytes.length_toList.symm

@[simp] theorem Writer.position_append (w : Writer) (bytes : List UInt8) :
    (w.append bytes).position = w.position + bytes.length := by
  simp only [position_eq_length, toList_append, List.length_append]

inductive Piece where
  | u8 (n : UInt8)
  | u16 (n : UInt16)
  | u32 (n : UInt32)
  | i8 (n : Int8)
  | i16 (n : Int16)
  | i32 (n : Int32)
  | f32 (x : Binary32)
  | f64 (x : Binary64)
  | bool (b : Bool)
  | bytes (held : List UInt8)
  | flags (set : List Bool)
  | text (s : String)

namespace Piece

/-- What must be known of a piece to read it: bytes as they are do not tell their number. -/
inductive Kind where
  | u8
  | u16
  | u32
  | i8
  | i16
  | i32
  | f32
  | f64
  | bool
  | bytes (count : Nat)
  | flags
  | text

def kind : Piece → Kind
  | u8 _ => .u8
  | u16 _ => .u16
  | u32 _ => .u32
  | i8 _ => .i8
  | i16 _ => .i16
  | i32 _ => .i32
  | f32 _ => .f32
  | f64 _ => .f64
  | bool _ => .bool
  | bytes held => .bytes held.length
  | flags _ => .flags
  | text _ => .text

def write : Piece → Write Unit
  | u8 n => Write.u8 n
  | u16 n => Write.u16 n
  | u32 n => Write.u32 n
  | i8 n => Write.i8 n
  | i16 n => Write.i16 n
  | i32 n => Write.i32 n
  | f32 x => Write.f32 x
  | f64 x => Write.f64 x
  | bool b => Write.bool b
  | bytes held => Write.bytes held
  | flags set => Write.flags set
  | text s => Write.text s

def Kind.read : Kind → Read Piece
  | .u8 => Piece.u8 <$> Read.u8
  | .u16 => Piece.u16 <$> Read.u16
  | .u32 => Piece.u32 <$> Read.u32
  | .i8 => Piece.i8 <$> Read.i8
  | .i16 => Piece.i16 <$> Read.i16
  | .i32 => Piece.i32 <$> Read.i32
  | .f32 => Piece.f32 <$> Read.f32
  | .f64 => Piece.f64 <$> Read.f64
  | .bool => Piece.bool <$> Read.bool
  | .bytes count => Piece.bytes <$> Read.bytes count
  | .flags => Piece.flags <$> Read.flags
  | .text => Piece.text <$> Read.text

def byteCount : Piece → Nat
  | u8 _ | i8 _ | bool _ | flags _ => 1
  | u16 _ | i16 _ => 2
  | u32 _ | i32 _ | f32 _ => 4
  | f64 _ => 8
  | bytes held => held.length
  | text s => Write.textSize s

/-- Flags and texts are refused beyond a number, other pieces never. -/
def Fits : Piece → Prop
  | flags set => set.length ≤ 7
  | text s => Utf16.length s ≤ 65535
  | _ => True

open Write Read

theorem exists_write_eq_bytes : ∀ {p : Piece}, p.Fits →
    ∃ held, p.write = Write.bytes held ∧ held.length = p.byteCount ∧ p.kind.read.Yields held p
  | .u8 _, _ => ⟨_, rfl, rfl, (yields_u8_iff.mpr rfl).map Piece.u8⟩
  | .u16 _, _ => ⟨_, rfl, Bytes.length_bigEndian 2 _, (yields_u16_iff.mpr rfl).map Piece.u16⟩
  | .u32 _, _ => ⟨_, rfl, Bytes.length_bigEndian 4 _, (yields_u32_iff.mpr rfl).map Piece.u32⟩
  | .i8 _, _ => ⟨_, rfl, rfl, (yields_i8_iff.mpr rfl).map Piece.i8⟩
  | .i16 _, _ => ⟨_, rfl, Bytes.length_bigEndian 2 _, (yields_i16_iff.mpr rfl).map Piece.i16⟩
  | .i32 _, _ => ⟨_, rfl, Bytes.length_bigEndian 4 _, (yields_i32_iff.mpr rfl).map Piece.i32⟩
  | .f32 _, _ => ⟨_, rfl, Bytes.length_bigEndian 4 _, (yields_f32_iff.mpr rfl).map Piece.f32⟩
  | .f64 _, _ => ⟨_, rfl, Bytes.length_bigEndian 8 _, (yields_f64_iff.mpr rfl).map Piece.f64⟩
  | .bool b, _ => by
    refine ⟨_, rfl, rfl, (yields_bool_iff.mpr ⟨_, rfl, ?_⟩).map Piece.bool⟩
    cases b <;> rfl
  | .bytes _, _ => ⟨_, rfl, rfl, (yields_bytes_iff.mpr ⟨rfl, rfl⟩).map Piece.bytes⟩
  | .flags set, h => by
    have hfew : set.length ≤ maxFlags := h
    refine ⟨[Bytes.packFlags set], if_pos hfew, rfl, (yields_flags_iff.mpr ⟨_, rfl, ?_⟩).map Piece.flags⟩
    rw [Bytes.unpackFlags_packFlags h]
  | .text s, h => by
    have hshort : (Utf16.encode s.toList).length ≤ Write.maxUnits := h
    exact ⟨Write.textBytes (Utf16.encode s.toList), if_pos hshort, Write.length_textBytes _,
      (yields_text_iff.mpr ⟨h, rfl⟩).map Piece.text⟩

theorem exists_refusal : ∀ {p : Piece}, ¬p.Fits → ∃ failure, p.write = Write.fail failure
  | .u8 _, h | .u16 _, h | .u32 _, h | .i8 _, h | .i16 _, h | .i32 _, h | .f32 _, h | .f64 _, h
  | .bool _, h | .bytes _, h => absurd trivial h
  | .flags set, h => ⟨_, by
    have hmany : ¬set.length ≤ maxFlags := h
    rw [write, Write.flags, if_neg hmany]⟩
  | .text s, h => ⟨_, by
    have hlong : ¬(Utf16.encode s.toList).length ≤ Write.maxUnits := h
    rw [write, Write.text, if_neg hlong]⟩

structure Attempt where
  piece : Piece
  before : Writer
  result : Except Failure Unit
  after : Writer

def Attempt.succeeded (a : Attempt) : Bool := a.result.isOk

def writeEach : List Piece → Writer → List Attempt × Writer
  | [], w => ([], w)
  | p :: rest, w =>
    let (result, after) := p.write.run.run w
    let (attempts, last) := writeEach rest after
    (⟨p, w, result, after⟩ :: attempts, last)

/-- What is read for each kind in turn and the position where it leaves the cursor, and the cursor at the
end. -/
def readEach : List Kind → Cursor → List (Except Failure Piece × Nat) × Cursor
  | [], cursor => ([], cursor)
  | kind :: rest, cursor =>
    let (result, cursor) := kind.read.run.run cursor
    let (results, last) := readEach rest cursor
    ((result, cursor.position) :: results, last)

theorem writeEach_cons {p : Piece} {w after : Writer} {result : Except Failure Unit}
    (hrun : p.write.run.run w = (result, after)) (rest : List Piece) :
    writeEach (p :: rest) w =
      (⟨p, w, result, after⟩ :: (writeEach rest after).1, (writeEach rest after).2) := by
  rw [writeEach, hrun]

theorem readEach_cons {kind : Kind} {cursor after : Cursor} {result : Except Failure Piece}
    (hrun : kind.read.run.run cursor = (result, after)) (rest : List Kind) :
    readEach (kind :: rest) cursor =
      ((result, after.position) :: (readEach rest after).1, (readEach rest after).2) := by
  rw [readEach, hrun]

theorem run_write (p : Piece) (w : Writer) :
    (p.Fits ∧ ∃ held, p.write.run.run w = (.ok (), w.append held) ∧ held.length = p.byteCount ∧
      p.kind.read.Yields held p) ∨
    ¬p.Fits ∧ ∃ failure, p.write.run.run w = (.error failure, w) := by
  by_cases h : p.Fits
  · obtain ⟨held, hwrite, hlength, hyields⟩ := exists_write_eq_bytes h
    exact Or.inl ⟨h, held, by rw [hwrite]; rfl, hlength, hyields⟩
  · obtain ⟨failure, hrefused⟩ := exists_refusal h
    exact Or.inr ⟨h, failure, by rw [hrefused]; rfl⟩

theorem pieces_writeEach (pieces : List Piece) (w : Writer) :
    (writeEach pieces w).1.map Attempt.piece = pieces := by
  induction pieces generalizing w with
  | nil => rfl
  | cons p rest ih => exact congrArg (p :: ·) (ih _)

theorem attempt_writeEach {pieces : List Piece} {w : Writer} :
    ∀ a ∈ (writeEach pieces w).1, (a.result = .ok () ↔ a.piece.Fits) ∧
      (¬a.piece.Fits → a.after = a.before) := by
  induction pieces generalizing w with
  | nil => exact fun a ha => absurd ha List.not_mem_nil
  | cons p rest ih =>
    rcases run_write p w with ⟨hfits, held, hrun, -⟩ | ⟨hfits, failure, hrun⟩
    · rw [writeEach_cons hrun, List.forall_mem_cons]
      exact ⟨⟨iff_of_true rfl hfits, fun h => absurd hfits h⟩, ih⟩
    · rw [writeEach_cons hrun, List.forall_mem_cons]
      exact ⟨⟨iff_of_false (fun h => nomatch h) hfits, fun _ => rfl⟩, ih⟩

theorem readEach_writeEach (pieces : List Piece) (w : Writer) : ∃ held,
    (writeEach pieces w).2.toList = w.toList ++ held ∧ ∀ rest,
      readEach (((writeEach pieces w).1.filter Attempt.succeeded).map fun a => a.piece.kind)
          ⟨w.position, held ++ rest⟩ =
        (((writeEach pieces w).1.filter Attempt.succeeded).map fun a => (.ok a.piece, a.after.position),
          ⟨(writeEach pieces w).2.position, rest⟩) := by
  induction pieces generalizing w with
  | nil => exact ⟨[], (List.append_nil _).symm, fun rest => rfl⟩
  | cons p pieces ih =>
    rcases run_write p w with ⟨-, first, hrun, -, hyields⟩ | ⟨-, failure, hrun⟩
    · obtain ⟨second, hout, hread⟩ := ih (w.append first)
      refine ⟨first ++ second, ?_, fun rest => ?_⟩
      · rw [writeEach_cons hrun, hout, Writer.toList_append, List.append_assoc]
      · have hfirst := hyields w.position (second ++ rest)
        rw [← w.position_append] at hfirst
        rw [writeEach_cons hrun, List.filter_cons_of_pos rfl, List.map_cons, List.map_cons,
          List.append_assoc, readEach_cons hfirst, hread]
    · obtain ⟨held, hout, hread⟩ := ih w
      refine ⟨held, ?_, fun rest => ?_⟩
      · rw [writeEach_cons hrun, hout]
      · rw [writeEach_cons hrun, List.filter_cons_of_neg Bool.false_ne_true, hread]

/-- Of any pieces that are written one after the other, just those that do not fit are refused, and they
leave the writer as it was. From what the others have appended their kinds are read as the same pieces, each
up to where the writer stood behind it, and nothing is left over. -/
theorem pieces_read_back (pieces : List Piece) (w : Writer) : ∃ attempts final last,
    writeEach pieces w = (attempts, final) ∧ attempts.map Attempt.piece = pieces ∧
    (∀ a ∈ attempts, (a.result = .ok () ↔ a.piece.Fits) ∧ (¬a.piece.Fits → a.after = a.before)) ∧
    readEach ((attempts.filter Attempt.succeeded).map fun a => a.piece.kind)
        (Cursor.ofPosition final.toList w.position) =
      ((attempts.filter Attempt.succeeded).map fun a => (.ok a.piece, a.after.position), last) ∧
    last.checkEnd = .ok () := by
  obtain ⟨held, hout, hread⟩ := readEach_writeEach pieces w
  have hcursor : Cursor.ofPosition (writeEach pieces w).2.toList w.position =
      ⟨w.position, held ++ []⟩ := by
    rw [Cursor.ofPosition, hout, w.position_eq_length, List.drop_left, List.append_nil]
  exact ⟨_, _, _, rfl, pieces_writeEach pieces w, attempt_writeEach, hcursor ▸ hread [],
    Codec.checkEnd_eq_ok_iff.mpr rfl⟩

private def script : List Piece :=
  [.u16 258, .flags (List.replicate 8 true), .bool true, .bytes [7, 8], .i8 (-1), .flags [true, false],
    .text "n"]

theorem pieces_read_back_script : ∃ last,
    (writeEach script (Writer.ofSize 3)).2.toList = [1, 2, 1, 7, 8, 255, 6, 0, 1, 0, 110] ∧
    readEach [.u16, .bool, .bytes 2, .i8, .flags, .text]
        (Cursor.ofBytes [1, 2, 1, 7, 8, 255, 6, 0, 1, 0, 110]) =
      ([(.ok (.u16 258), 2), (.ok (.bool true), 3), (.ok (.bytes [7, 8]), 5), (.ok (.i8 (-1)), 6),
        (.ok (.flags [true, false]), 7), (.ok (.text "n"), 11)], last) ∧
    last.checkEnd = .ok () := by
  obtain ⟨attempts, final, last, hwrite, -, -, hread, hend⟩ := pieces_read_back script (Writer.ofSize 3)
  cases hwrite
  exact ⟨last, rfl, hread, hend⟩

end Piece

end WireSchema
