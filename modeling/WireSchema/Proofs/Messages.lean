import WireSchema.Proofs.NormalForm

/-! Nothing separates two messages in a stream: an encoder only appends, and a decoder stops where the
bytes of its value end. What a custom type announces does not matter once the message has been encoded.
-/

namespace WireSchema

theorem length_of_mapM_eq_ok {ε α β : Type} {f : α → Except ε β} {items : List α} {parts : List β}
    (h : items.mapM f = .ok parts) : parts.length = items.length := by
  induction items generalizing parts with
  | nil =>
    cases h
    rfl
  | cons a items ih =>
    rw [List.mapM_cons] at h
    obtain ⟨b, -, h⟩ := bind_eq_ok_iff.mp h
    obtain ⟨others, hothers, h⟩ := bind_eq_ok_iff.mp h
    cases h
    rw [List.length_cons, List.length_cons, ih hothers]

theorem Value.length_le_of_expectItems {count : CountWidth} {v : Value} {items : List Value}
    (h : v.expectItems count = .ok items) : items.length ≤ count.limit := by
  obtain ⟨items', -, h⟩ := bind_eq_ok_iff.mp h
  split at h
  · rename_i hcount
    cases h
    exact hcount
  · cases h

/-- Whether it writes a value, and what it then appends, depend on the value alone; and from these bytes
it reads something, wherever they stand and whatever follows, consuming just them. -/
structure Extension.Lawful (e : Extension) : Prop where
  settled : ∀ v, (∃ out, (e.write v).Appends out) ∨
    ∀ w, ∃ failure w', (e.write v).run.run w = (.error failure, w')
  read_back : ∀ v out, (e.write v).Appends out → ∃ a, e.read.Yields out a

section

variable {α β : Type}

/-- Whenever the first computation succeeds on some writer it appends the same bytes to every writer, and
the second one reads something from these bytes. -/
def Transmits (m : Write Unit) (r : Read α) : Prop :=
  ∀ w w', m.run.run w = (.ok (), w') → ∃ out a, m.Appends out ∧ r.Yields out a

namespace Transmits

variable {m k : Write Unit} {r : Read α} {f : α → Read β}

theorem of_yields {out : List UInt8} {a : α} (hm : m.Appends out) (hr : r.Yields out a) :
    Transmits m r :=
  fun _ _ _ => ⟨out, a, hm, hr⟩

theorem of_steady (hm : m.Steady) (h : ∀ out, m.output? = some out → ∃ a, r.Yields out a) :
    Transmits m r := by
  intro w w' hrun
  rcases hm with ⟨out, ha⟩ | hf
  · obtain ⟨a, hr⟩ := h out ha.output?
    exact ⟨out, a, ha, hr⟩
  · obtain ⟨failure, w'', hfails, -⟩ := hf w
    cases hrun.symm.trans hfails

theorem fail (failure : Failure) : Transmits (Write.fail failure) r := by
  intro w w' hrun
  cases hrun

theorem bind (hm : Transmits m r) (hk : ∀ a, Transmits k (f a)) :
    Transmits (m >>= fun _ => k) (r >>= f) := by
  intro w w' hrun
  rw [run_bind] at hrun
  rcases hfirst : m.run.run w with ⟨failure | _, w₁⟩
  · rw [hfirst] at hrun
    cases hrun
  · rw [hfirst] at hrun
    obtain ⟨first, a, hma, hra⟩ := hm w w₁ hfirst
    obtain ⟨second, b, hkb, hrb⟩ := hk a w₁ w' hrun
    exact ⟨first ++ second, b, hma.bind hkb, hra.bind hrb⟩

theorem behind {out : List UInt8} {a : α} (hm : m.Appends out) (hr : r.Yields out a)
    (hk : Transmits k (f a)) : Transmits (m >>= fun _ => k) (r >>= f) := by
  intro w w' hrun
  obtain ⟨w₁, hfirst, -⟩ := hm w
  rw [run_bind, hfirst] at hrun
  obtain ⟨second, b, hkb, hrb⟩ := hk w₁ w' hrun
  exact ⟨out ++ second, b, hm.bind hkb, hr.bind hrb⟩

theorem map (g : α → β) (h : Transmits m r) : Transmits m (g <$> r) := by
  intro w w' hrun
  obtain ⟨out, a, hm, hr⟩ := h w w' hrun
  exact ⟨out, g a, hm, hr.map g⟩

theorem within (step : Step) (h : Transmits m r) : Transmits (Write.within step m) r := by
  intro w w' hrun
  rw [Write.run_within] at hrun
  rcases hm : m.run.run w with ⟨failure | _, w₁⟩
  · rw [hm] at hrun
    cases hrun
  · obtain ⟨out, a, hout, hr⟩ := h w w₁ hm
    exact ⟨out, a, hout.within step, hr⟩

theorem ofExcept_bind {γ : Type} {result : Except Failure γ} {g : γ → Write Unit}
    (h : ∀ c, result = .ok c → Transmits (g c) r) : Transmits (Write.ofExcept result >>= g) r := by
  rw [Write.ofExcept_bind]
  cases result with
  | ok c => exact h c rfl
  | error failure => exact fail failure

end Transmits

end

theorem Extension.Lawful.transmits {e : Extension} (h : e.Lawful) (v : Value) :
    Transmits (e.write v) e.read := by
  intro w w' hrun
  rcases h.settled v with ⟨out, hout⟩ | hfails
  · obtain ⟨a, ha⟩ := h.read_back v out hout
    exact ⟨out, a, hout, ha⟩
  · obtain ⟨failure, w'', hfail⟩ := hfails w
    cases hrun.symm.trans hfail

theorem Scalar.lawful_asExtension (type : Scalar) : type.asExtension.Lawful where
  settled v := by
    refine (type.steady_write v).imp_right fun hfails w => ?_
    obtain ⟨failure, w', hrun, -⟩ := hfails w
    exact ⟨failure, w', hrun⟩
  read_back v out hout := by
    have hbytes : type.bytes? v = some out := (type.output?_write v).symm.trans hout.output?
    exact ⟨_, type.yields_of_bytes? hbytes⟩

namespace Layout

open Schema Read

theorem transmits_scalar (type : Scalar) (v : Value) : Transmits (type.write v) type.read := by
  refine .of_steady (type.steady_write v) fun out hout => ?_
  rw [type.output?_write] at hout
  exact ⟨_, type.yields_of_bytes? hout⟩

theorem transmits_label {α : Type} [BEq α] [LawfulBEq α] {labels : List (α × Int64)}
    (h : LabelsFit labels) (label : α) (undeclared : Undeclared) (unknown : UInt8 → Undeclared) :
    Transmits (writeOrdinal ((labelTable labels).ordinals.lookup label) undeclared)
      (readLabel (labelTable labels) unknown) := by
  cases hbyte : (labelTable labels).ordinals.lookup label with
  | none => exact .fail _
  | some byte =>
    exact .of_yields (a := label) (Write.appends_bytes [byte])
      (yields_readLabel_iff.mpr ⟨byte, rfl, (lookup_labels_labelTable h).mpr hbyte⟩)

theorem transmits_flags {flags : List (String × Int64)} (h : FlagsFit flags) {set : List Bool}
    (hlength : set.length = (flagNames flags).length) :
    Transmits (Write.flags set) (readFlags (flagNames flags)) := by
  have hfew : set.length ≤ maxFlags := by
    rw [hlength, length_flagNames h]
    exact h.few
  rw [Write.flags, if_pos hfew]
  refine .of_yields (Write.appends_bytes [Bytes.packFlags set])
    ((yields_readFlags_iff (flagNames_nodup h)).mpr ⟨_, rfl, ?_, rfl⟩)
  rw [Bytes.unpackFlags_packFlags hfew, hlength]

theorem appends_writeCount {count : CountWidth} {n : Nat} (h : n ≤ count.limit) :
    (writeCount count n).Appends (Bytes.bigEndian count.bytes n) :=
  (steady_writeCount count n).output?_eq_some_iff.mp (output?_writeCount h)

theorem transmits_items {item : Value → Write Unit} {element : Read Value}
    (h : ∀ v, Transmits (item v) element) (index : Nat) (items done : List Value) :
    Transmits (writeItems item index items) (Read.repeated element done items.length) := by
  induction items generalizing index done with
  | nil => exact .of_yields Write.appends_pure (yields_pure_iff.mpr ⟨rfl, rfl⟩)
  | cons v items ih => exact ((h v).within _).bind fun a => ih (index + 1) (a :: done)

section

variable {discriminant : String}

mutual

theorem transmits : ∀ {schema : Schema} {layout : Layout},
    Compiles Extension.Lawful discriminant schema layout →
    ∀ v, Transmits (layout.write v) layout.read
  | _, _, .scalar type, v => transmits_scalar type v
  | _, _, .extension _ he, v => he.transmits v
  | _, _, .enum h, _ => .ofExcept_bind fun label _ => (transmits_label h label _ _).map _
  | _, _, .numberEnum h, _ => by
    refine .ofExcept_bind fun n _ => .map _ ?_
    rw [LabelTable.ordinalOfInt?]
    split
    · exact transmits_label h _ _ _
    · exact .fail _
  | _, _, .bitmask h, _ => by
    refine .ofExcept_bind fun fields _ => .ofExcept_bind fun set hset => transmits_flags h ?_
    exact length_of_mapM_eq_ok hset
  | _, _, .optional _ h, v => by
    rw [Layout.write]
    split
    · exact .of_yields (Write.appends_bytes [0])
        (Yields.bind (yields_u8_iff.mpr rfl) (yields_pure_iff.mpr ⟨rfl, rfl⟩))
    · exact .behind (Write.appends_bytes [1]) (yields_u8_iff.mpr rfl) (transmits h v)
  | _, _, .array h, v => by
    refine .ofExcept_bind fun items hitems => ?_
    have hcount := Value.length_le_of_expectItems hitems
    exact .behind (appends_writeCount hcount) (yields_readCount_iff.mpr ⟨hcount, rfl⟩)
      ((transmits_items (transmits h) 0 items []).map _)
  | _, _, .union _ _ _ h, _ =>
    .ofExcept_bind fun (index, fields) _ =>
      .behind (Write.appends_bytes [index]) (yields_u8_iff.mpr rfl)
        (transmitsVariant h index index.toNat fields)
  | _, _, .record _ h, _ => .ofExcept_bind fun fields _ => (transmitsFields h fields []).map _

theorem transmitsFields : ∀ {schemas : List (String × Schema)} {layouts : List (String × Layout)},
    CompilesFields Extension.Lawful discriminant schemas layouts →
    ∀ fields front, Transmits (writeFields layouts fields) (readFields layouts front)
  | _, _, .nil, _, _ => .of_yields Write.appends_pure (yields_pure_iff.mpr ⟨rfl, rfl⟩)
  | _, _, .cons h hs, fields, _ =>
    ((transmits h _).within _).bind fun _ => transmitsFields hs fields _

theorem transmitsVariant : ∀ {variants : List (String × List (String × Schema))}
    {layouts : List (VariantKey × List (String × Layout))},
    CompilesVariants Extension.Lawful discriminant variants layouts →
    ∀ index place fields, Transmits (writeVariant index layouts place fields)
      (readVariant discriminant index layouts place)
  | _, _, .nil, _, _, _ => .fail _
  | _, _, .cons _ h _, _, 0, fields => (transmitsFields h fields _).map _
  | _, _, .cons _ _ hs, index, place + 1, fields => transmitsVariant hs index place fields

end

end

end Layout

/-- A value with its bytes, encoded by the codec of a valid schema whose custom types are lawful. -/
structure Message where
  types : Extensions
  discriminant : String
  schema : Schema
  codec : Codec
  compiled : Codec.ofSchema types discriminant schema = .ok codec
  lawful : ∀ name ∈ codec.layout.extensionNames, ∀ e, types.get? name = some e → e.Lawful
  value : Value
  bytes : List UInt8
  encoded : codec.encode value = .ok bytes

def Cursor.ofPosition (buffer : List UInt8) (position : Nat) : Cursor :=
  ⟨position, buffer.drop position⟩

namespace Codec

def encodeEach : List (Codec × Value) → Writer → Except Failure Unit × Writer
  | [], w => (.ok (), w)
  | (c, v) :: rest, w =>
    match c.encodeInto v w with
    | (.ok (), w) => encodeEach rest w
    | (.error failure, w) => (.error failure, w)

/-- What each codec in turn reads and the position where it leaves the cursor, and the cursor at the
end. -/
def decodeEach : List Codec → Cursor → List (Except Failure Value × Nat) × Cursor
  | [], cursor => ([], cursor)
  | c :: rest, cursor =>
    let (result, cursor) := c.decodeFrom cursor
    let (results, last) := decodeEach rest cursor
    ((result, cursor.position) :: results, last)

end Codec

namespace Message

theorem delivered (m : Message) : ∃ v, (m.codec.layout.write m.value).Appends m.bytes ∧
    m.codec.layout.read.Yields m.bytes v := by
  have hc := Codec.compiles m.compiled m.lawful
  obtain ⟨size, w, hinto, hbytes⟩ := Codec.encodeInto_of_encode m.encoded
  obtain ⟨out, v, hout, hv⟩ := Layout.transmits hc m.value _ _ hinto
  obtain ⟨w', hrun, hw'⟩ := hout (Writer.ofSize size)
  cases hinto.symm.trans hrun
  have heq : m.bytes = out := hbytes.symm.trans hw'
  exact ⟨v, heq ▸ hout, heq ▸ hv⟩

theorem encodeInto_eq (m : Message) (w : Writer) : ∃ w',
    m.codec.encodeInto m.value w = (.ok (), w') ∧ w'.toList = w.toList ++ m.bytes := by
  obtain ⟨-, hwrite, -⟩ := m.delivered
  exact hwrite w

theorem decodeFrom_eq (m : Message) : ∃ v, m.codec.decode m.bytes = .ok v ∧
    ∀ position rest, m.codec.decodeFrom ⟨position, m.bytes ++ rest⟩ =
      (.ok v, ⟨position + m.bytes.length, rest⟩) := by
  obtain ⟨v, -, hread⟩ := m.delivered
  exact ⟨v, Codec.decode_of_yields hread, hread⟩

theorem encodeEach_eq (messages : List Message) (w : Writer) : ∃ w',
    Codec.encodeEach (messages.map fun m => (m.codec, m.value)) w = (.ok (), w') ∧
      w'.toList = w.toList ++ messages.flatMap Message.bytes := by
  induction messages generalizing w with
  | nil => exact ⟨w, rfl, (List.append_nil _).symm⟩
  | cons m messages ih =>
    obtain ⟨w₁, hfirst, hout₁⟩ := m.encodeInto_eq w
    obtain ⟨w₂, hrest, hout₂⟩ := ih w₁
    refine ⟨w₂, ?_, ?_⟩
    · rw [List.map_cons, Codec.encodeEach, hfirst]
      exact hrest
    · rw [hout₂, hout₁, List.flatMap_cons, List.append_assoc]

theorem decodeEach_eq (messages : List Message) (position : Nat) (rest : List UInt8) : ∃ results,
    Codec.decodeEach (messages.map Message.codec) ⟨position, messages.flatMap Message.bytes ++ rest⟩ =
      (results, ⟨position + (messages.map fun m => m.bytes.length).sum, rest⟩) ∧
    results.length = messages.length ∧
    ∀ (i : Nat) m, messages[i]? = some m → ∃ v, m.codec.decode m.bytes = .ok v ∧
      results[i]? =
        some (.ok v, position + ((messages.take (i + 1)).map fun m => m.bytes.length).sum) := by
  induction messages generalizing position with
  | nil => exact ⟨[], rfl, rfl, fun _ _ hget => (nomatch hget)⟩
  | cons m messages ih =>
    obtain ⟨v, hv, hfrom⟩ := m.decodeFrom_eq
    obtain ⟨results, hresults, hlength, hall⟩ := ih (position + m.bytes.length)
    refine ⟨(.ok v, position + m.bytes.length) :: results, ?_, ?_, ?_⟩
    · rw [List.map_cons, List.flatMap_cons, List.append_assoc, Codec.decodeEach, hfrom]
      simp only [hresults, List.map_cons, List.sum_cons, Nat.add_assoc]
    · rw [List.length_cons, List.length_cons, hlength]
    · intro i m' hget
      cases i with
      | zero =>
        cases hget
        exact ⟨v, hv, by simp⟩
      | succ i =>
        obtain ⟨v', hv', hi⟩ := hall i m' hget
        refine ⟨v', hv', ?_⟩
        rw [List.getElem?_cons_succ, hi, List.take_succ_cons, List.map_cons, List.sum_cons,
          Nat.add_assoc]

/-- Messages written one after the other leave their bytes one after the other behind what the writer
held. Read from there by the same codecs, whatever follows, each is decoded as it is alone and leaves the
cursor at its end, and nothing is left over at the end exactly if nothing followed. -/
theorem back_to_back (messages : List Message) (w : Writer) (rest : List UInt8) : ∃ w' results last,
    Codec.encodeEach (messages.map fun m => (m.codec, m.value)) w = (.ok (), w') ∧
    w'.toList = w.toList ++ messages.flatMap Message.bytes ∧
    Codec.decodeEach (messages.map Message.codec)
      (Cursor.ofPosition (w'.toList ++ rest) w.toList.length) = (results, last) ∧
    results.length = messages.length ∧
    (∀ (i : Nat) m, messages[i]? = some m → ∃ v, m.codec.decode m.bytes = .ok v ∧
      results[i]? = some (.ok v, w.toList.length +
        ((messages.take (i + 1)).map fun m => m.bytes.length).sum)) ∧
    (last.checkEnd = .ok () ↔ rest = []) := by
  obtain ⟨w', hwrite, hout⟩ := encodeEach_eq messages w
  obtain ⟨results, hread, hlength, hall⟩ := decodeEach_eq messages w.toList.length rest
  have hcursor : Cursor.ofPosition (w'.toList ++ rest) w.toList.length =
      ⟨w.toList.length, messages.flatMap Message.bytes ++ rest⟩ := by
    rw [Cursor.ofPosition, hout, List.append_assoc, List.drop_left]
  exact ⟨w', results, _, hwrite, hout, hcursor ▸ hread, hlength, hall, Codec.checkEnd_eq_ok_iff⟩

private def levels : Message where
  types := ⟨[("level", Scalar.uint8.asExtension)]⟩
  discriminant := "type"
  schema := .array .one (.custom "level")
  codec := .ofLayout ⟨[("level", Scalar.uint8.asExtension)]⟩ (.array .one (.custom "level"))
    (.array .one (.extension "level" Scalar.uint8.asExtension))
  compiled := rfl
  lawful name hname e he := by
    obtain rfl := List.mem_singleton.mp hname
    obtain rfl := Option.some.inj he
    exact Scalar.uint8.lawful_asExtension
  value := .array [.u8 7, .i16 8]
  bytes := [2, 7, 8]
  encoded := rfl

private def greeting : Message where
  types := ∅
  discriminant := "kind"
  schema := .union [("hello", [("to", .scalar .string)])]
  codec := .ofLayout ∅ (.union [("hello", [("to", .scalar .string)])])
    (.union "kind" [(⟨"hello", 0⟩, [("to", .scalar .string)])] [("hello", 0)])
  compiled := rfl
  lawful _ hname := nomatch hname
  value := .object [("kind", .string "hello"), ("to", .string "y")]
  bytes := [0, 0, 1, 0, 121]
  encoded := rfl

/-- Two messages of different codecs behind a byte and in front of another. -/
theorem back_to_back_greeting : ∃ w' results last,
    Codec.encodeEach [(levels.codec, levels.value), (greeting.codec, greeting.value)]
      ⟨#[9], 1, false⟩ = (.ok (), w') ∧
    w'.toList = [9, 2, 7, 8, 0, 0, 1, 0, 121] ∧
    Codec.decodeEach [levels.codec, greeting.codec]
      (Cursor.ofPosition ([9, 2, 7, 8, 0, 0, 1, 0, 121] ++ [5]) 1) = (results, last) ∧
    results[1]? =
      some (.ok (.object [("kind", .string "hello"), ("to", .string "y")]), 1 + (3 + 5)) ∧
    ¬last.checkEnd = .ok () := by
  obtain ⟨w', results, last, hwrite, hout, hread, -, hall, hend⟩ :=
    back_to_back [levels, greeting] ⟨#[9], 1, false⟩ [5]
  obtain ⟨v, hv, hsecond⟩ := hall 1 greeting rfl
  cases hv
  rw [hout] at hread
  exact ⟨w', results, last, hwrite, hout, hread, hsecond, fun hok => (nomatch hend.mp hok)⟩

end Message

end WireSchema
