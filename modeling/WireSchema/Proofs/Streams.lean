import WireSchema.Proofs.Units
import WireSchema.Wire.Cursor
import WireSchema.Wire.Writer

/-! `Steady` is said of what writes, `Yields` and `Exact` of what reads. They pass through sequencing,
which turns a statement about a computation into one about the bytes of its steps. -/

namespace WireSchema

section Effects

variable {σ ε α β : Type}

theorem run_bind (m : ExceptT ε (StateM σ) α) (k : α → ExceptT ε (StateM σ) β) (s : σ) :
    (m >>= k).run.run s = match m.run.run s with
      | (.ok a, s') => (k a).run.run s'
      | (.error failure, s') => (.error failure, s') := by
  change (match m.run.run s with
    | (r, s') => (ExceptT.bindCont k r).run s') = _
  rcases m.run.run s with ⟨_ | a, s'⟩ <;> rfl

theorem run_pure (a : α) (s : σ) :
    (pure a : ExceptT ε (StateM σ) α).run.run s = (.ok a, s) := rfl

end Effects

namespace Write

/-- Appends the bytes to every writer. -/
def Appends (m : Write Unit) (out : List UInt8) : Prop :=
  ∀ w : Writer, ∃ w', m.run.run w = (.ok (), w') ∧ w'.toList = w.toList ++ out

/-- Fails on every writer, and what the writer held stays in front. -/
def Fails (m : Write Unit) : Prop :=
  ∀ w : Writer, ∃ failure w', m.run.run w = (.error failure, w') ∧ w.toList <+: w'.toList

/-- Only appends; whether it succeeds and what it then appends do not depend on the writer. -/
def Steady (m : Write Unit) : Prop := (∃ out, m.Appends out) ∨ m.Fails

def output? (m : Write Unit) : Option (List UInt8) :=
  match m.run.run ∅ with
  | (.ok _, w) => some w.toList
  | (.error _, _) => none

theorem Appends.output? {m : Write Unit} {out : List UInt8} (h : m.Appends out) :
    m.output? = some out := by
  obtain ⟨w, hrun, hout⟩ := h ∅
  rw [Write.output?, hrun]
  exact congrArg some hout

theorem Fails.output? {m : Write Unit} (h : m.Fails) : m.output? = none := by
  obtain ⟨failure, w, hrun, -⟩ := h ∅
  rw [Write.output?, hrun]

theorem Steady.output?_eq_some_iff {m : Write Unit} (h : m.Steady) {out : List UInt8} :
    m.output? = some out ↔ m.Appends out := by
  constructor
  · intro hout
    rcases h with ⟨out', ha⟩ | hf
    · rw [ha.output?] at hout
      cases hout
      exact ha
    · rw [hf.output?] at hout
      contradiction
  · exact Appends.output?

theorem Appends.bind {m k : Write Unit} {a b : List UInt8} (hm : m.Appends a) (hk : k.Appends b) :
    (m >>= fun _ => k).Appends (a ++ b) := by
  intro w
  obtain ⟨w₁, hrun₁, hout₁⟩ := hm w
  obtain ⟨w₂, hrun₂, hout₂⟩ := hk w₁
  refine ⟨w₂, ?_, ?_⟩
  · rw [run_bind, hrun₁]
    exact hrun₂
  · rw [hout₂, hout₁, List.append_assoc]

theorem Appends.bind_fails {m k : Write Unit} {a : List UInt8} (hm : m.Appends a) (hk : k.Fails) :
    (m >>= fun _ => k).Fails := by
  intro w
  obtain ⟨w₁, hrun₁, hout₁⟩ := hm w
  obtain ⟨failure, w₂, hrun₂, hprefix⟩ := hk w₁
  refine ⟨failure, w₂, ?_, ?_⟩
  · rw [run_bind, hrun₁]
    exact hrun₂
  · exact (hout₁ ▸ List.prefix_append w.toList a).trans hprefix

theorem Fails.bind {m k : Write Unit} (hm : m.Fails) : (m >>= fun _ => k).Fails := by
  intro w
  obtain ⟨failure, w', hrun, hprefix⟩ := hm w
  refine ⟨failure, w', ?_, hprefix⟩
  rw [run_bind, hrun]

theorem Steady.bind {m k : Write Unit} (hm : m.Steady) (hk : k.Steady) :
    (m >>= fun _ => k).Steady := by
  rcases hm with ⟨a, ha⟩ | hf
  · rcases hk with ⟨b, hb⟩ | hf
    · exact Or.inl ⟨a ++ b, ha.bind hb⟩
    · exact Or.inr (ha.bind_fails hf)
  · exact Or.inr hf.bind

theorem Steady.output?_bind {m k : Write Unit} (hm : m.Steady) (hk : k.Steady) :
    (m >>= fun _ => k).output? = m.output?.bind fun a => k.output?.map (a ++ ·) := by
  rcases hm with ⟨a, ha⟩ | hf
  · rcases hk with ⟨b, hb⟩ | hf
    · rw [(ha.bind hb).output?, ha.output?, hb.output?]
      rfl
    · rw [(ha.bind_fails hf).output?, ha.output?, hf.output?]
      rfl
  · rw [hf.bind.output?, hf.output?]
    rfl

theorem appends_pure : (pure () : Write Unit).Appends [] := by
  intro w
  exact ⟨w, rfl, (List.append_nil _).symm⟩

theorem appends_bytes (out : List UInt8) : (bytes out).Appends out := by
  intro w
  exact ⟨w.append out, rfl, Writer.toList_append w out⟩

theorem fails_fail (failure : Failure) : (fail failure : Write Unit).Fails := by
  intro w
  exact ⟨failure, w, rfl, List.prefix_rfl⟩

theorem steady_pure : (pure () : Write Unit).Steady := Or.inl ⟨[], appends_pure⟩

theorem steady_bytes (out : List UInt8) : (bytes out).Steady := Or.inl ⟨out, appends_bytes out⟩

theorem steady_u8 (n : UInt8) : (u8 n).Steady := steady_bytes [n]

theorem steady_fail (failure : Failure) : (fail failure : Write Unit).Steady :=
  Or.inr (fails_fail failure)

@[simp] theorem output?_pure : (pure () : Write Unit).output? = some [] := appends_pure.output?

@[simp] theorem output?_bytes (out : List UInt8) : (bytes out).output? = some out :=
  (appends_bytes out).output?

@[simp] theorem output?_u8 (n : UInt8) : (u8 n).output? = some [n] := output?_bytes [n]

@[simp] theorem output?_fail (failure : Failure) : (fail failure : Write Unit).output? = none :=
  (fails_fail failure).output?

theorem ofExcept_bind {α β : Type} (r : Except Failure α) (k : α → Write β) :
    ofExcept r >>= k = match r with
      | .ok a => k a
      | .error failure => fail failure := by
  cases r <;> rfl

theorem steady_ofExcept_bind {α : Type} {r : Except Failure α} {k : α → Write Unit}
    (h : ∀ a, r = .ok a → (k a).Steady) : (ofExcept r >>= k).Steady := by
  rw [ofExcept_bind]
  cases r with
  | ok a => exact h a rfl
  | error failure => exact steady_fail failure

theorem output?_ofExcept_bind {α : Type} (r : Except Failure α) (k : α → Write Unit) :
    (ofExcept r >>= k).output? = r.toOption.bind fun a => (k a).output? := by
  rw [ofExcept_bind]
  cases r with
  | ok a => rfl
  | error failure => exact output?_fail failure

theorem run_within (step : Step) (m : Write Unit) (w : Writer) :
    (within step m).run.run w =
      ((m.run.run w).1.mapError (Failure.within step), (m.run.run w).2) := rfl

theorem Appends.within {m : Write Unit} {out : List UInt8} (step : Step) (h : m.Appends out) :
    (Write.within step m).Appends out := by
  intro w
  obtain ⟨w', hrun, hout⟩ := h w
  exact ⟨w', by rw [run_within, hrun]; rfl, hout⟩

theorem Steady.within {m : Write Unit} (step : Step) (h : m.Steady) :
    (Write.within step m).Steady := by
  rcases h with ⟨out, ha⟩ | hf
  · exact Or.inl ⟨out, ha.within step⟩
  · refine Or.inr fun w => ?_
    obtain ⟨failure, w', hrun, hprefix⟩ := hf w
    exact ⟨failure.within step, w', by rw [run_within, hrun]; rfl, hprefix⟩

@[simp] theorem output?_within (step : Step) (m : Write Unit) :
    (Write.within step m).output? = m.output? := by
  unfold output?
  rw [run_within]
  rcases m.run.run ∅ with ⟨_ | _, w⟩ <;> rfl

end Write

namespace Read

variable {α β : Type}

/-- Reads the result from exactly these bytes, whatever follows them and wherever they stand. -/
def Yields (m : Read α) (bytes : List UInt8) (a : α) : Prop :=
  ∀ position rest, m.run.run ⟨position, bytes ++ rest⟩ = (.ok a, ⟨position + bytes.length, rest⟩)

/-- Every success comes from the bytes that it consumes. -/
def Exact (m : Read α) : Prop :=
  ∀ c a c', m.run.run c = (.ok a, c') → ∃ bytes, c.rest = bytes ++ c'.rest ∧
    c'.position = c.position + bytes.length ∧ m.Yields bytes a

theorem Yields.run {m : Read α} {bytes : List UInt8} {a : α} (h : m.Yields bytes a) (position : Nat) :
    m.run.run ⟨position, bytes⟩ = (.ok a, ⟨position + bytes.length, []⟩) := by
  have hrun := h position []
  rwa [List.append_nil] at hrun

theorem Yields.unique {m : Read α} {bytes : List UInt8} {a b : α} (ha : m.Yields bytes a)
    (hb : m.Yields bytes b) : a = b := by
  have h := (ha.run 0).symm.trans (hb.run 0)
  cases h
  rfl

theorem Exact.yields_of_run {m : Read α} (h : m.Exact) {position : Nat} {bytes : List UInt8} {a : α}
    {position' : Nat} (hrun : m.run.run ⟨position, bytes⟩ = (.ok a, ⟨position', []⟩)) :
    m.Yields bytes a := by
  obtain ⟨consumed, hrest, -, hyields⟩ := h _ _ _ hrun
  simp only [List.append_nil] at hrest
  rwa [hrest]

theorem Yields.bind {m : Read α} {k : α → Read β} {first second : List UInt8} {a : α} {b : β}
    (hm : m.Yields first a) (hk : (k a).Yields second b) : (m >>= k).Yields (first ++ second) b := by
  intro position rest
  rw [run_bind, List.append_assoc, hm]
  simp only [hk _ _, List.length_append, Nat.add_assoc]

theorem Exact.bind {m : Read α} {k : α → Read β} (hm : m.Exact) (hk : ∀ a, (k a).Exact) :
    (m >>= k).Exact := by
  intro c b c' hrun
  rw [run_bind] at hrun
  rcases hm' : m.run.run c with ⟨failure | a, c₁⟩
  · rw [hm'] at hrun
    cases hrun
  · rw [hm'] at hrun
    obtain ⟨first, hrest₁, hpos₁, hfirst⟩ := hm _ _ _ hm'
    obtain ⟨second, hrest₂, hpos₂, hsecond⟩ := hk a _ _ _ hrun
    refine ⟨first ++ second, ?_, ?_, hfirst.bind hsecond⟩
    · rw [hrest₁, hrest₂, List.append_assoc]
    · rw [hpos₂, hpos₁, List.length_append, Nat.add_assoc]

theorem Exact.bind_yields_iff {m : Read α} {k : α → Read β} (hm : m.Exact) (hk : ∀ a, (k a).Exact)
    {bytes : List UInt8} {b : β} :
    (m >>= k).Yields bytes b ↔
      ∃ a first second, bytes = first ++ second ∧ m.Yields first a ∧ (k a).Yields second b := by
  constructor
  · intro h
    have hrun := h.run 0
    rw [run_bind] at hrun
    rcases hm' : m.run.run ⟨0, bytes⟩ with ⟨failure | a, c₁⟩
    · rw [hm'] at hrun
      cases hrun
    · rw [hm'] at hrun
      obtain ⟨first, hrest, -, hfirst⟩ := hm _ _ _ hm'
      exact ⟨a, first, c₁.rest, hrest, hfirst, (hk a).yields_of_run hrun⟩
  · rintro ⟨a, first, second, rfl, hfirst, hsecond⟩
    exact hfirst.bind hsecond

theorem yields_pure_iff {a b : α} {bytes : List UInt8} :
    (pure a : Read α).Yields bytes b ↔ bytes = [] ∧ b = a := by
  constructor
  · intro h
    have hrun := h.run 0
    rw [run_pure] at hrun
    cases bytes with
    | nil => cases hrun; exact ⟨rfl, rfl⟩
    | cons byte rest => cases hrun
  · rintro ⟨rfl, rfl⟩ position rest
    rfl

theorem exact_pure (a : α) : (pure a : Read α).Exact := by
  intro c b c' hrun
  cases hrun
  exact ⟨[], rfl, rfl, yields_pure_iff.mpr ⟨rfl, rfl⟩⟩

theorem Yields.map {m : Read α} {bytes : List UInt8} {a : α} (f : α → β) (h : m.Yields bytes a) :
    (f <$> m).Yields bytes (f a) := by
  rw [map_eq_pure_bind, ← bytes.append_nil]
  exact h.bind (yields_pure_iff.mpr ⟨rfl, rfl⟩)

theorem not_yields_fail {failure : Failure} {a : α} {bytes : List UInt8} :
    ¬(fail failure : Read α).Yields bytes a := by
  intro h
  have hrun := h.run 0
  cases hrun

theorem exact_fail (failure : Failure) : (fail failure : Read α).Exact := by
  intro c b c' hrun
  cases hrun

theorem Exact.map {m : Read α} (f : α → β) (h : m.Exact) : (f <$> m).Exact := by
  rw [map_eq_pure_bind]
  exact h.bind fun a => exact_pure (f a)

theorem Exact.map_yields_iff {m : Read α} {f : α → β} (h : m.Exact) {bytes : List UInt8} {b : β} :
    (f <$> m).Yields bytes b ↔ ∃ a, m.Yields bytes a ∧ b = f a := by
  rw [map_eq_pure_bind, h.bind_yields_iff fun a => exact_pure (f a)]
  constructor
  · rintro ⟨a, first, second, rfl, hfirst, hsecond⟩
    obtain ⟨rfl, rfl⟩ := yields_pure_iff.mp hsecond
    exact ⟨a, by rwa [List.append_nil], rfl⟩
  · rintro ⟨a, ha, rfl⟩
    exact ⟨a, bytes, [], (List.append_nil _).symm, ha, yields_pure_iff.mpr ⟨rfl, rfl⟩⟩

theorem run_map (f : α → β) (m : Read α) (c : Cursor) :
    (f <$> m).run.run c = ((m.run.run c).1.map f, (m.run.run c).2) := by
  rw [map_eq_pure_bind, run_bind]
  rcases m.run.run c with ⟨_ | a, c'⟩ <;> rfl

theorem run_bytes (count : Nat) (c : Cursor) :
    (bytes count).run.run c =
      if (c.rest.take count).length = count then
        (.ok (c.rest.take count), ⟨c.position + count, c.rest.drop count⟩)
      else (.error (.outOfBounds count c.remaining), c) := by
  change (ite _ _ _ : Read (List UInt8)).run.run c = _
  split <;> rfl

theorem yields_bytes_iff {count : Nat} {taken held : List UInt8} :
    (bytes count).Yields held taken ↔ held.length = count ∧ taken = held := by
  constructor
  · intro h
    have hrun := h.run 0
    rw [run_bytes] at hrun
    split at hrun
    · rename_i hcount
      obtain ⟨htaken, hrest⟩ := Prod.mk.inj hrun
      have hdrop : held.drop count = [] := congrArg Cursor.rest hrest
      rw [List.drop_eq_nil_iff] at hdrop
      rw [List.take_of_length_le hdrop] at htaken hcount
      cases htaken
      exact ⟨hcount, rfl⟩
    · cases hrun
  · rintro ⟨rfl, rfl⟩ position rest
    rw [run_bytes]
    simp

theorem exact_bytes (count : Nat) : (bytes count).Exact := by
  intro c taken c' hrun
  rw [run_bytes] at hrun
  split at hrun
  · rename_i hcount
    cases hrun
    refine ⟨c.rest.take count, (List.take_append_drop count c.rest).symm, ?_,
      yields_bytes_iff.mpr ⟨hcount, rfl⟩⟩
    simp only [hcount]
  · cases hrun

theorem exact_word (width : Nat) : (word width).Exact := (exact_bytes width).map _

theorem yields_word_iff {width n : Nat} {held : List UInt8} :
    (word width).Yields held n ↔ n < 256 ^ width ∧ held = Bytes.bigEndian width n := by
  unfold word
  rw [(exact_bytes width).map_yields_iff]
  constructor
  · rintro ⟨taken, htaken, rfl⟩
    obtain ⟨rfl, rfl⟩ := yields_bytes_iff.mp htaken
    exact ⟨Bytes.ofBigEndian_lt _, (Bytes.bigEndian_ofBigEndian _).symm⟩
  · rintro ⟨hlt, rfl⟩
    exact ⟨_, yields_bytes_iff.mpr ⟨Bytes.length_bigEndian _ _, rfl⟩,
      (Bytes.ofBigEndian_bigEndian_of_lt hlt).symm⟩

theorem exact_u8 : u8.Exact := (exact_word 1).map _

theorem exact_u16 : u16.Exact := (exact_word 2).map _

theorem exact_u32 : u32.Exact := (exact_word 4).map _

private theorem yields_map_word_iff {width : Nat} {f : Nat → α} {toNat : α → Nat}
    (hf : ∀ a, f (toNat a) = a) (hlt : ∀ a, toNat a < 256 ^ width)
    (hto : ∀ n, n < 256 ^ width → toNat (f n) = n) {held : List UInt8} {a : α} :
    (f <$> word width).Yields held a ↔ held = Bytes.bigEndian width (toNat a) := by
  rw [(exact_word width).map_yields_iff]
  constructor
  · rintro ⟨n, hword, rfl⟩
    obtain ⟨hn, rfl⟩ := yields_word_iff.mp hword
    rw [hto n hn]
  · intro h
    exact ⟨toNat a, yields_word_iff.mpr ⟨hlt a, h⟩, (hf a).symm⟩

theorem yields_u16_iff {held : List UInt8} {n : UInt16} :
    u16.Yields held n ↔ held = Bytes.bigEndian 2 n.toNat :=
  yields_map_word_iff (fun _ => UInt16.ofNat_toNat) (fun n => n.toNat_lt)
    (fun _ hn => UInt16.toNat_ofNat_of_lt' hn)

theorem yields_u32_iff {held : List UInt8} {n : UInt32} :
    u32.Yields held n ↔ held = Bytes.bigEndian 4 n.toNat :=
  yields_map_word_iff (fun _ => UInt32.ofNat_toNat) (fun n => n.toNat_lt)
    (fun _ hn => UInt32.toNat_ofNat_of_lt' hn)

theorem yields_u8_iff {held : List UInt8} {n : UInt8} : u8.Yields held n ↔ held = [n] := by
  rw [← Bytes.bigEndian_one]
  exact yields_map_word_iff (fun _ => UInt8.ofNat_toNat) (fun n => n.toNat_lt)
    (fun _ hn => UInt8.toNat_ofNat_of_lt' hn)

theorem yields_f64_iff {held : List UInt8} {x : Binary64} :
    f64.Yields held x ↔ held = Bytes.bigEndian 8 x.bits.toNat :=
  @yields_map_word_iff Binary64 8 (fun n => ⟨UInt64.ofNat n⟩) (fun x => x.bits.toNat)
    (fun _ => congrArg Binary64.mk UInt64.ofNat_toNat) (fun x => x.bits.toNat_lt)
    (fun _ hn => UInt64.toNat_ofNat_of_lt' hn) held x

theorem exact_f64 : f64.Exact := (exact_word 8).map _

theorem Exact.yields_rename_iff {m : Read α} (h : m.Exact) {f : α → β} {g : β → α}
    (hfg : ∀ b, f (g b) = b) (hgf : ∀ a, g (f a) = a) {held : List UInt8} {b : β} :
    (f <$> m).Yields held b ↔ m.Yields held (g b) := by
  rw [h.map_yields_iff]
  constructor
  · rintro ⟨a, ha, rfl⟩
    rwa [hgf]
  · intro hb
    exact ⟨g b, hb, (hfg b).symm⟩

theorem yields_i8_iff {held : List UInt8} {n : Int8} : i8.Yields held n ↔ held = [n.toUInt8] :=
  (exact_u8.yields_rename_iff (fun n => n.toInt8_toUInt8) UInt8.toUInt8_toInt8).trans yields_u8_iff

theorem yields_i16_iff {held : List UInt8} {n : Int16} :
    i16.Yields held n ↔ held = Bytes.bigEndian 2 n.toUInt16.toNat :=
  (exact_u16.yields_rename_iff (fun n => n.toInt16_toUInt16) UInt16.toUInt16_toInt16).trans
    yields_u16_iff

theorem yields_i32_iff {held : List UInt8} {n : Int32} :
    i32.Yields held n ↔ held = Bytes.bigEndian 4 n.toUInt32.toNat :=
  (exact_u32.yields_rename_iff (fun n => n.toInt32_toUInt32) UInt32.toUInt32_toInt32).trans
    yields_u32_iff

theorem yields_f32_iff {held : List UInt8} {x : Binary32} :
    f32.Yields held x ↔ held = Bytes.bigEndian 4 x.bits.toNat :=
  (exact_u32.yields_rename_iff (g := Binary32.bits) (fun _ => rfl) (fun _ => rfl)).trans
    yields_u32_iff

theorem yields_bool_iff {held : List UInt8} {b : Bool} :
    bool.Yields held b ↔ ∃ byte, held = [byte] ∧ b = (byte == 1) := by
  unfold bool
  simp only [exact_u8.map_yields_iff, yields_u8_iff]

theorem yields_flags_iff {held : List UInt8} {set : List Bool} :
    flags.Yields held set ↔ ∃ byte, held = [byte] ∧ set = Bytes.unpackFlags byte := by
  unfold flags
  simp only [exact_u8.map_yields_iff, yields_u8_iff]

private theorem exact_textOfBytes (taken : List UInt8) :
    (match Utf16.decode? (units taken) with
      | some s => pure (String.ofList s)
      | none => fail .illFormedText : Read String).Exact := by
  split
  · exact exact_pure _
  · exact exact_fail _

theorem exact_text : text.Exact :=
  exact_u16.bind fun _ => (exact_bytes _).bind exact_textOfBytes

theorem yields_text_iff {held : List UInt8} {s : String} :
    text.Yields held s ↔ Utf16.length s ≤ Write.maxUnits ∧
      held = Write.textBytes (Utf16.encode s.toList) := by
  refine (exact_u16.bind_yields_iff fun _ => (exact_bytes _).bind exact_textOfBytes).trans ?_
  simp only [(exact_bytes _).bind_yields_iff exact_textOfBytes, yields_u16_iff, yields_bytes_iff]
  constructor
  · rintro ⟨count, _, _, rfl, rfl, _, body, _, rfl, ⟨hlength, rfl⟩, htext⟩
    obtain ⟨hbytes, hcount⟩ := unitBytes_units hlength
    split at htext
    · rename_i t ht
      obtain ⟨rfl, rfl⟩ := yields_pure_iff.mp htext
      have hunits := Utf16.encode_of_decode? ht
      rw [Utf16.length, String.toList_ofList, hunits, hcount]
      refine ⟨Nat.le_of_lt_succ count.toNat_lt, ?_⟩
      rw [Write.textBytes, hcount, List.append_nil]
      exact congrArg _ hbytes.symm
    · exact absurd htext not_yields_fail
  · rintro ⟨hlength, rfl⟩
    have hcount : (UInt16.ofNat (Utf16.length s)).toNat = Utf16.length s :=
      UInt16.toNat_ofNat_of_lt' (Nat.lt_succ_of_le hlength)
    refine ⟨UInt16.ofNat (Utf16.length s), _, _, rfl, by rw [hcount]; rfl,
      _, unitBytes (Utf16.encode s.toList), [], (List.append_nil _).symm, ⟨?_, rfl⟩, ?_⟩
    · rw [length_unitBytes, hcount, Utf16.length]
    · rw [units_unitBytes, Utf16.decode?_encode]
      exact yields_pure_iff.mpr ⟨rfl, String.ofList_toList.symm⟩

def YieldsEach (m : Read α) : List α → List UInt8 → Prop
  | [], held => held = []
  | a :: items, held => ∃ first second, held = first ++ second ∧ m.Yields first a ∧
      YieldsEach m items second

theorem YieldsEach.exists_yields {m : Read α} {items : List α} {held : List UInt8}
    (h : m.YieldsEach items held) : ∀ a ∈ items, ∃ part, m.Yields part a := by
  induction items generalizing held with
  | nil => exact fun a ha => absurd ha List.not_mem_nil
  | cons b items ih =>
    obtain ⟨first, second, -, hfirst, hsecond⟩ := h
    exact List.forall_mem_cons.mpr ⟨⟨first, hfirst⟩, ih hsecond⟩

theorem Exact.repeated {m : Read α} (h : m.Exact) (done : List α) (count : Nat) :
    (Read.repeated m done count).Exact := by
  induction count generalizing done with
  | zero => exact exact_pure _
  | succ count ih => exact h.bind fun a => ih (a :: done)

theorem Exact.repeated_yields_iff {m : Read α} (h : m.Exact) {done items : List α} {count : Nat}
    {held : List UInt8} :
    (Read.repeated m done count).Yields held items ↔
      ∃ new, items = done.reverse ++ new ∧ new.length = count ∧ m.YieldsEach new held := by
  induction count generalizing done held with
  | zero =>
    rw [Read.repeated, yields_pure_iff]
    constructor
    · rintro ⟨rfl, rfl⟩
      exact ⟨[], (List.append_nil _).symm, rfl, rfl⟩
    · rintro ⟨new, rfl, hlength, heach⟩
      obtain rfl := List.length_eq_zero_iff.mp hlength
      exact ⟨heach, List.append_nil _⟩
  | succ count ih =>
    rw [Read.repeated, h.bind_yields_iff fun a => h.repeated (a :: done) count]
    constructor
    · rintro ⟨a, first, second, rfl, hfirst, hsecond⟩
      obtain ⟨new, rfl, rfl, heach⟩ := ih.mp hsecond
      refine ⟨a :: new, by rw [List.reverse_cons, List.append_assoc]; rfl, rfl, ?_⟩
      exact ⟨first, second, rfl, hfirst, heach⟩
    · rintro ⟨_ | ⟨a, new⟩, rfl, hlength, heach⟩
      · cases hlength
      · obtain ⟨first, second, rfl, hfirst, hrest⟩ := heach
        refine ⟨a, first, second, rfl, hfirst, ih.mpr ⟨new, ?_, Nat.succ.inj hlength, hrest⟩⟩
        rw [List.reverse_cons, List.append_assoc]
        rfl

end Read

end WireSchema
