import WireSchema.Proofs.Mismatches

/-! Without custom types few kinds of failure are left. That a size is not met, or that flags are too
many for a byte, is ruled out by the schema. -/

namespace WireSchema

namespace Read

variable {α β : Type} {P Q : List UInt8 → Failure → Prop}

/-- If nothing is read, the failure and the bytes ahead satisfy `P`. -/
def FailsOnly (P : List UInt8 → Failure → Prop) (m : Read α) : Prop :=
  ∀ c : Cursor, WireSchema.FailsOnly (P c.rest) (m.run.run c).1

theorem failsOnly_pure (a : α) : (pure a : Read α).FailsOnly P := fun _ => failsOnly_ok a

theorem failsOnly_fail {failure : Failure} (h : ∀ bytes, P bytes failure) :
    (fail failure : Read α).FailsOnly P := fun c => failsOnly_error (h c.rest)

theorem FailsOnly.imp {m : Read α} (h : m.FailsOnly P) (hPQ : ∀ bytes failure, P bytes failure →
    Q bytes failure) : m.FailsOnly Q :=
  fun c => WireSchema.FailsOnly.imp (h c) (hPQ c.rest)

theorem FailsOnly.bind {m : Read α} {k : α → Read β} (hm : m.FailsOnly P) (hexact : m.Exact)
    (hk : ∀ a held, m.Yields held a → (k a).FailsOnly fun bytes => P (held ++ bytes)) :
    (m >>= k).FailsOnly P := by
  intro c
  rw [run_bind]
  rcases hrun : m.run.run c with ⟨failure | a, c'⟩
  · exact failsOnly_error (hm c failure (congrArg Prod.fst hrun))
  · obtain ⟨held, hrest, -, hheld⟩ := hexact c a c' hrun
    rw [hrest]
    exact hk a held hheld c'

theorem FailsOnly.map {m : Read α} (f : α → β) (h : m.FailsOnly P) : (f <$> m).FailsOnly P := by
  intro c
  rw [map_eq_pure_bind, run_bind]
  rcases hrun : m.run.run c with ⟨failure | a, c'⟩
  · exact failsOnly_error (h c failure (congrArg Prod.fst hrun))
  · exact failsOnly_ok (f a)

abbrev MisreadsOnly (m : Read α) : Prop := m.FailsOnly fun _ failure => failure.isFormat = true

theorem misreadsOnly_bytes (count : Nat) : (bytes count).MisreadsOnly := by
  intro c
  rw [run_bytes]
  split
  · exact failsOnly_ok _
  · exact failsOnly_error rfl

theorem misreadsOnly_word (width : Nat) : (word width).MisreadsOnly := (misreadsOnly_bytes width).map _

theorem misreadsOnly_u8 : u8.MisreadsOnly := (misreadsOnly_word 1).map _

theorem misreadsOnly_u16 : u16.MisreadsOnly := (misreadsOnly_word 2).map _

theorem misreadsOnly_u32 : u32.MisreadsOnly := (misreadsOnly_word 4).map _

theorem misreadsOnly_text : text.MisreadsOnly := by
  refine misreadsOnly_u16.bind exact_u16 fun count _ _ => ?_
  refine (misreadsOnly_bytes _).bind (exact_bytes _) fun taken _ _ => ?_
  split
  · exact failsOnly_pure _
  · exact failsOnly_fail fun _ => rfl

end Read

theorem Scalar.misreadsOnly_read (type : Scalar) : type.read.MisreadsOnly := by
  cases type with
  | uint8 => exact Read.misreadsOnly_u8.map _
  | uint16 => exact Read.misreadsOnly_u16.map _
  | uint32 => exact Read.misreadsOnly_u32.map _
  | int8 | boolean => exact (Read.misreadsOnly_u8.map _).map _
  | int16 => exact (Read.misreadsOnly_u16.map _).map _
  | int32 | float32 => exact (Read.misreadsOnly_u32.map _).map _
  | float64 => exact ((Read.misreadsOnly_word 8).map _).map _
  | string => exact Read.misreadsOnly_text.map _

namespace Schema

/-- What a byte fails to name at the node that it stands for. -/
def unknown? : Schema → UInt8 → Option Undeclared
  | .enum labels, byte =>
    if ∃ l ∈ labels, l.2.toInt = byte.toNat then none else some (.enumOrdinal byte)
  | .numberEnum labels, byte =>
    if ∃ l ∈ labels, l.2.toInt = byte.toNat then none else some (.numberEnumOrdinal byte)
  | .union variants, byte => if byte.toNat < variants.length then none else some (.variant byte)
  | _, _ => none

def Fills (discriminant : String) (schema : Schema) (held : List UInt8) : Prop :=
  ∃ layout v, Compiles (fun _ => False) discriminant schema layout ∧ layout.read.Yields held v

section

variable (discriminant : String)

mutual

/-- Behind these bytes of a value, reading comes to the node. -/
inductive Reaches : Schema → List UInt8 → Schema → Prop
  | here (schema : Schema) : Reaches schema [] schema
  | optional {inner node : Schema} {front : List UInt8} :
      Reaches inner front node → Reaches (.optional inner) (1 :: front) node
  | array {count : CountWidth} {element node : Schema} {n : Nat} {front : List UInt8} :
      n ≤ count.limit → ReachesInside (List.replicate n element) front node →
      Reaches (.array count element) (Bytes.bigEndian count.bytes n ++ front) node
  | union {variants : List (String × List (String × Schema))} {node : Schema} {index : UInt8}
      {tag : String} {schemas : List (String × Schema)} {front : List UInt8} :
      variants[index.toNat]? = some (tag, schemas) →
      ReachesInside (schemas.map Prod.snd) front node → Reaches (.union variants) (index :: front) node
  | record {schemas : List (String × Schema)} {node : Schema} {front : List UInt8} :
      ReachesInside (schemas.map Prod.snd) front node → Reaches (.record schemas) front node

inductive ReachesInside : List Schema → List UInt8 → Schema → Prop
  | head {schema node : Schema} {rest : List Schema} {front : List UInt8} :
      Reaches schema front node → ReachesInside (schema :: rest) front node
  | tail {schema node : Schema} {rest : List Schema} {held front : List UInt8} :
      Fills discriminant schema held → ReachesInside rest front node →
      ReachesInside (schema :: rest) (held ++ front) node

end

end

/-- The bytes do not follow the layout, or a byte of them names nothing at the node that is reached
there. -/
def Misread (reaches : List UInt8 → Schema → Prop) (bytes : List UInt8) (failure : Failure) : Prop :=
  failure.isFormat = true ∨ ∃ front byte rest node what, failure = .undeclared what ∧
    bytes = front ++ byte :: rest ∧ reaches front node ∧ node.unknown? byte = some what

section

variable {reaches reaches' : List UInt8 → Schema → Prop} {bytes : List UInt8} {failure : Failure}

theorem Misread.behind (h : Misread reaches bytes failure) (held : List UInt8)
    (hreaches : ∀ front node, reaches front node → reaches' (held ++ front) node) :
    Misread reaches' (held ++ bytes) failure := by
  rcases h with hformat | ⟨front, byte, rest, node, what, rfl, rfl, hnode, hwhat⟩
  · exact Or.inl hformat
  · refine Or.inr ⟨held ++ front, byte, rest, node, what, rfl, ?_, hreaches front node hnode, hwhat⟩
    rw [List.append_assoc]

theorem Misread.imp (h : Misread reaches bytes failure)
    (hreaches : ∀ front node, reaches front node → reaches' front node) :
    Misread reaches' bytes failure := h.behind [] hreaches

theorem misread_here {discriminant : String} {schema : Schema} {byte : UInt8} {what : Undeclared}
    (h : schema.unknown? byte = some what) (rest : List UInt8) :
    Misread (Reaches discriminant schema) (byte :: rest) (.undeclared what) :=
  Or.inr ⟨[], byte, rest, schema, what, rfl, rfl, .here schema, h⟩

end

end Schema

namespace Layout

open Schema Read

theorem not_exists_of_lookup_labels {α : Type} [BEq α] [LawfulBEq α] {labels : List (α × Int64)}
    (h : LabelsFit labels) {byte : UInt8} (hnone : (labelTable labels).labels.lookup byte = none) :
    ¬∃ l ∈ labels, l.2.toInt = byte.toNat := by
  rintro ⟨l, hl, hordinal⟩
  have hbyte : ordinalByte l.2 = byte := by
    rw [← UInt8.toNat_inj, toNat_ordinalByte (h.range l hl), hordinal, Int.toNat_natCast]
  have hlookup : (labelTable labels).labels.lookup byte = some l.1 := by
    rw [lookup_labels_labelTable h, lookup_ordinals_labelTable h,
      (Assoc.lookup_eq_some_iff_mem h.labels_nodup).mpr hl, Option.map_some, hbyte]
  rw [hnone] at hlookup
  cases hlookup

theorem failsOnly_readLabel {α : Type} {table : LabelTable α} {unknown : UInt8 → Undeclared}
    {discriminant : String} {schema : Schema}
    (h : ∀ byte, table.labels.lookup byte = none → schema.unknown? byte = some (unknown byte)) :
    (readLabel table unknown).FailsOnly (Misread (Reaches discriminant schema)) := by
  refine (misreadsOnly_u8.imp fun _ _ => Or.inl).bind exact_u8 fun byte held hheld => ?_
  obtain rfl := yields_u8_iff.mp hheld
  split
  · exact failsOnly_pure _
  -- The byte is consumed already when it is looked up, so the place is the one in front of it.
  · rename_i hnone
    exact failsOnly_fail fun rest => misread_here (h byte hnone) rest

theorem misreadsOnly_readCount (count : CountWidth) : (readCount count).MisreadsOnly := by
  cases count with
  | one => exact misreadsOnly_u8.map _
  | two => exact misreadsOnly_u16.map _

theorem misreadsOnly_readFlags (names : List String) : (readFlags names).MisreadsOnly := by
  refine (misreadsOnly_u8.map _).bind (exact_u8.map _) fun set _ _ => ?_
  split
  · exact failsOnly_pure _
  · exact failsOnly_fail fun _ => rfl

section

variable {discriminant : String}

theorem failsOnly_repeated {schema : Schema} {layout : Layout}
    (h : Compiles (fun _ => False) discriminant schema layout)
    (hread : layout.read.FailsOnly (Misread (Reaches discriminant schema))) (done : List Value)
    (n : Nat) : (Read.repeated layout.read done n).FailsOnly
      (Misread (ReachesInside discriminant (List.replicate n schema))) := by
  induction n generalizing done with
  | zero => exact failsOnly_pure _
  | succ n ih =>
    refine (hread.imp fun _ _ hmisread => hmisread.imp fun _ _ => .head).bind (exact_read h) ?_
    intro v held hheld
    exact (ih (v :: done)).imp fun _ _ hmisread => hmisread.behind _ fun _ _ => .tail ⟨layout, v, h, hheld⟩

mutual

theorem failsOnly_read : ∀ {schema : Schema} {layout : Layout},
    Compiles (fun _ => False) discriminant schema layout →
    layout.read.FailsOnly (Misread (Reaches discriminant schema))
  | _, _, .scalar type => type.misreadsOnly_read.imp fun _ _ => Or.inl
  | _, _, .extension _ he => he.elim
  | _, _, .enum h => by
    refine (failsOnly_readLabel fun byte hnone => ?_).map _
    rw [unknown?, if_neg (not_exists_of_lookup_labels h hnone)]
  | _, _, .numberEnum h => by
    refine (failsOnly_readLabel fun byte hnone => ?_).map _
    rw [unknown?, if_neg (not_exists_of_lookup_labels h hnone)]
  | _, _, .bitmask _ => (misreadsOnly_readFlags _).imp fun _ _ => Or.inl
  | _, _, .optional _ h => by
    refine (misreadsOnly_u8.imp fun _ _ => Or.inl).bind exact_u8 fun presence held hheld => ?_
    obtain rfl := yields_u8_iff.mp hheld
    split
    · exact failsOnly_pure _
    split
    · rename_i hone
      subst hone
      exact (failsOnly_read h).imp fun _ _ hmisread => hmisread.behind [1] fun _ _ => .optional
    · exact failsOnly_fail fun _ => Or.inl rfl
  | _, _, .array h => by
    refine ((misreadsOnly_readCount _).imp fun _ _ => Or.inl).bind (exact_readCount _) ?_
    intro n held hheld
    obtain ⟨hlimit, rfl⟩ := yields_readCount_iff.mp hheld
    refine ((failsOnly_repeated h (failsOnly_read h) [] n).imp fun _ _ hmisread => ?_).map _
    exact hmisread.behind _ fun _ _ => .array hlimit
  | .union variants, _, .union _ _ _ h => by
    refine (misreadsOnly_u8.imp fun _ _ => Or.inl).bind exact_u8 fun index held hheld => ?_
    obtain rfl := yields_u8_iff.mp hheld
    refine (failsOnly_readVariant h index index.toNat).imp fun rest failure hfailure => ?_
    rcases hfailure with ⟨hplace, rfl⟩ | ⟨tag, schemas, hget, hmisread⟩
    · refine misread_here ?_ rest
      rw [unknown?, if_neg (Nat.not_lt.mpr hplace)]
    · exact hmisread.behind [index] fun _ _ => .union hget
  | _, _, .record _ h =>
    ((failsOnly_readFields h []).imp fun _ _ hmisread => hmisread.imp fun _ _ => .record).map _

theorem failsOnly_readFields : ∀ {schemas : List (String × Schema)} {layouts : List (String × Layout)},
    CompilesFields (fun _ => False) discriminant schemas layouts → ∀ fields,
    (readFields layouts fields).FailsOnly
      (Misread (ReachesInside discriminant (schemas.map Prod.snd)))
  | _, _, .nil, fields => failsOnly_pure fields
  | _, _, .cons h hs, fields => by
    refine ((failsOnly_read h).imp fun _ _ hmisread => hmisread.imp fun _ _ => .head).bind
      (exact_read h) fun v held hheld => ?_
    exact (failsOnly_readFields hs _).imp fun _ _ hmisread =>
      hmisread.behind _ fun _ _ => .tail ⟨_, v, h, hheld⟩

theorem failsOnly_readVariant : ∀ {variants : List (String × List (String × Schema))}
    {layouts : List (VariantKey × List (String × Layout))},
    CompilesVariants (fun _ => False) discriminant variants layouts → ∀ (index : UInt8) (place : Nat),
    (readVariant discriminant index layouts place).FailsOnly fun bytes failure =>
      variants.length ≤ place ∧ failure = .undeclared (.variant index) ∨
      ∃ tag schemas, variants[place]? = some (tag, schemas) ∧
        Misread (ReachesInside discriminant (schemas.map Prod.snd)) bytes failure
  | _, _, .nil, _, _ => failsOnly_fail fun _ => Or.inl ⟨Nat.zero_le _, rfl⟩
  | _, _, .cons _ h _, _, 0 => ((failsOnly_readFields h _).imp fun _ _ hmisread =>
      Or.inr ⟨_, _, rfl, hmisread⟩).map _
  | _, _, .cons _ _ hs, index, place + 1 => by
    refine (failsOnly_readVariant hs index place).imp fun bytes failure hfailure => ?_
    rcases hfailure with ⟨hplace, rfl⟩ | hinside
    · exact Or.inl ⟨Nat.succ_le_succ hplace, rfl⟩
    · exact Or.inr hinside

end

end

end Layout

def Mismatch.IsTooManyFlags : Mismatch → Prop
  | .tooManyFlags _ => True
  | _ => False

theorem not_isTooManyFlags_of_ite {p : Prop} [Decidable p] {why why' : Mismatch}
    (h : (if p then none else some why) = some why') (hwhy : ¬why.IsTooManyFlags) :
    ¬why'.IsTooManyFlags := by
  obtain ⟨-, h⟩ := Option.ite_none_left_eq_some.mp h
  cases h
  exact hwhy

theorem Value.not_isTooManyFlags {α : Type} {v : Value} {expected : Shape} {part : Value → Option α}
    {inside : α → Option Mismatch} {why : Mismatch} (h : v.objection? expected part inside = some why)
    (hinside : ∀ a, inside a = some why → ¬why.IsTooManyFlags) : ¬why.IsTooManyFlags := by
  unfold objection? at h
  split at h
  · exact hinside _ h
  · cases h
    exact id

theorem Scalar.not_isTooManyFlags {type : Scalar} {v : Value} {why : Mismatch}
    (h : type.objection? v = some why) : ¬why.IsTooManyFlags := by
  unfold objection? at h
  split at h
  · exact Value.not_isTooManyFlags h fun n hn => not_isTooManyFlags_of_ite hn id
  split at h
  · refine Value.not_isTooManyFlags h fun _ hnone => ?_
    cases hnone
  · exact Value.not_isTooManyFlags h fun s hs => not_isTooManyFlags_of_ite hs id
  · refine Value.not_isTooManyFlags h fun _ hnone => ?_
    cases hnone

/-- The flags of a node are counted when its schema is checked, so no node objects to their number. -/
theorem Schema.not_isTooManyFlags {discriminant : String} {node : Schema} {v : Value}
    {inside : List Step} {why : Mismatch} (h : node.objection? discriminant v = some (inside, why)) :
    ¬why.IsTooManyFlags := by
  have hvalue : ∀ {found : Option Mismatch}, (found.map fun why => ([], why)) = some (inside, why) →
      found = some why := by
    intro found hfound
    obtain ⟨_, hfound, heq⟩ := Option.map_eq_some_iff.mp hfound
    cases heq
    exact hfound
  cases node with
  | scalar type => exact Scalar.not_isTooManyFlags (hvalue h)
  | custom _ | optional _ => cases h
  | enum _ | numberEnum _ | record _ =>
    refine Value.not_isTooManyFlags (hvalue h) fun _ hnone => ?_
    cases hnone
  | bitmask flags =>
    rw [objection?] at h
    split at h
    · obtain ⟨name, -, hflag⟩ := List.exists_of_findSome?_eq_some h
      obtain ⟨why, hwhy, heq⟩ := Option.map_eq_some_iff.mp hflag
      cases heq
      rw [Value.flagObjection?] at hwhy
      split at hwhy
      · cases hwhy
      · cases hwhy
      · cases hwhy
        exact id
    · cases h
      exact id
  | array count _ =>
    exact Value.not_isTooManyFlags (hvalue h) fun items hitems => not_isTooManyFlags_of_ite hitems id
  | union _ =>
    refine Value.not_isTooManyFlags (hvalue h) fun fields hfields => ?_
    split at hfields
    · cases hfields
    · cases hfields
      exact id
    · cases hfields
      exact id

namespace Codec

variable {types : Extensions} {discriminant : String} {schema : Schema} {c : Codec}

/-- Sizing, encoding and writing fail alike: at a node that objects to what it finds, or at one that does
not declare the label or tag it finds. -/
theorem located_of_failure (h : ofSchema types discriminant schema = .ok c) (hplain : c.IsPlain)
    {v : Value} {failure : Failure} (hfails : c.size v = .error failure ∨ c.encode v = .error failure ∨
      ∃ w, (c.encodeInto v w).1 = .error failure) :
    ∃ shown, schema.Located shown discriminant v failure := by
  have hc : Compiles (fun _ => False) discriminant schema c.layout := hplain.compiles h
  have hsizing : FailsOnly (fun failure => ∃ shown, schema.Located shown discriminant v failure)
      (c.size v) := (Layout.located_size hc v).imp fun _ hlocated => ⟨_, hlocated⟩
  have hwriting : (c.layout.write v).FailsOnly fun failure =>
      ∃ shown, schema.Located shown discriminant v failure :=
    (Layout.located_write hc v).imp fun _ hlocated => ⟨_, hlocated⟩
  rcases hfails with hsize | hencode | ⟨w, hwrite⟩
  · exact hsizing failure hsize
  · exact failsOnly_encode (hplain.compiles h) hsizing hwriting failure hencode
  · exact hwriting w failure hwrite

theorem misread_of_decode (hc : Compiles (fun _ => False) discriminant schema c.layout)
    {bytes : List UInt8} {failure : Failure} (hdecode : c.decode bytes = .error failure) :
    Schema.Misread (schema.Reaches discriminant) bytes failure := by
  have hreading := Layout.failsOnly_read hc (Cursor.ofBytes bytes)
  rw [decode_eq] at hdecode
  refine FailsOnly.bind hreading (fun v _ => ?_) failure hdecode
  refine FailsOnly.bind ?_ fun _ _ => failsOnly_ok v
  unfold Cursor.checkEnd
  split
  · exact failsOnly_ok ()
  · exact failsOnly_error (Or.inl rfl)

/-- Without custom types, sizing and encoding fail with a mismatch, never for the number of flags, or for
a label or tag that the value holds and the schema does not declare. Decoding fails because of the format
or for something undeclared, and never both; then the byte in question stands where a label or variant
must be told and tells none. -/
theorem failure_classes (h : ofSchema types discriminant schema = .ok c) (hplain : c.IsPlain) :
    (∀ v failure, (c.size v = .error failure ∨ c.encode v = .error failure ∨
        ∃ w, (c.encodeInto v w).1 = .error failure) →
      (∃ path why, failure = .mismatch path why ∧ ∀ count, why ≠ .tooManyFlags count) ∨
      ∃ what place node part, failure = .undeclared what ∧
        schema.nodeAt? discriminant place v = some (node, part) ∧
        node.undeclared? discriminant part = some what) ∧
    ∀ bytes failure, c.decode bytes = .error failure →
      failure.isFormat ≠ failure.isUndeclared ∧
      ∀ what, failure = .undeclared what → ∃ front byte rest node, bytes = front ++ byte :: rest ∧
        schema.Reaches discriminant front node ∧ node.unknown? byte = some what := by
  constructor
  · intro v failure hfails
    obtain ⟨shown, hlocated⟩ := located_of_failure h hplain hfails
    cases failure with
    | mismatch path why =>
      obtain ⟨-, node, part, inside, -, hobjection, -⟩ := hlocated
      refine Or.inl ⟨path, why, rfl, ?_⟩
      rintro count rfl
      exact Schema.not_isTooManyFlags hobjection trivial
    | undeclared what =>
      obtain ⟨place, node, part, hnode, hwhat⟩ := hlocated
      exact Or.inr ⟨what, place, node, part, rfl, hnode, hwhat⟩
    | _ => exact hlocated.elim
  · intro bytes failure hdecode
    rcases misread_of_decode (hplain.compiles h) hdecode with
      hformat | ⟨front, byte, rest, node, what, rfl, hbytes, hnode, hwhat⟩
    · cases failure with
      | undeclared _ | mismatch _ _ | sizeMismatch _ _ | other _ => cases hformat
      | _ => exact ⟨Bool.noConfusion, fun what hwhat => nomatch hwhat⟩
    · refine ⟨Bool.noConfusion, fun what' hwhat' => ?_⟩
      cases hwhat'
      exact ⟨front, byte, rest, node, hbytes, hnode, hwhat⟩

private def signal : Schema :=
  .record [("level", .scalar .uint8), ("lamp", .enum [("red", 3), ("green", 5)])]

private def signalCodec : Codec :=
  .ofLayout ∅ signal (.record [("level", .scalar .uint8),
    ("lamp", .enum (.ofList [("red", 3), ("green", 5)]))])

private def blueSignal : Value := .object [("level", .u8 1), ("lamp", .string "blue")]

/-- A lamp of an undeclared colour, on either side of the wire. -/
theorem failure_classes_signal :
    ofSchema ∅ "type" signal = .ok signalCodec ∧ signalCodec.IsPlain ∧
      (signalCodec.encode blueSignal = .error (.undeclared (.enumLabel "blue")) ∧
        ∃ place node part, signal.nodeAt? "type" place blueSignal = some (node, part) ∧
          node.undeclared? "type" part = some (.enumLabel "blue")) ∧
      signalCodec.decode [1, 4] = .error (.undeclared (.enumOrdinal 4)) ∧
        ∃ front byte rest node, [1, 4] = front ++ byte :: rest ∧ signal.Reaches "type" front node ∧
          node.unknown? byte = some (.enumOrdinal 4) := by
  have hcodec : ofSchema ∅ "type" signal = .ok signalCodec := rfl
  have hplain : signalCodec.IsPlain := isPlain_of_empty hcodec
  have hencode : signalCodec.encode blueSignal = .error (.undeclared (.enumLabel "blue")) := rfl
  have hdecode : signalCodec.decode [1, 4] = .error (.undeclared (.enumOrdinal 4)) := rfl
  refine ⟨hcodec, hplain, ⟨hencode, ?_⟩, hdecode,
    ((failure_classes hcodec hplain).2 _ _ hdecode).2 _ rfl⟩
  rcases (failure_classes hcodec hplain).1 _ _ (Or.inr (Or.inl hencode)) with
    ⟨path, why, hmismatch, -⟩ | ⟨what, place, node, part, hwhat, hnode, hundeclared⟩
  · cases hmismatch
  · cases hwhat
    exact ⟨place, node, part, hnode, hundeclared⟩

end Codec

end WireSchema
