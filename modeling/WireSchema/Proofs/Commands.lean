import WireSchema.Cli.Run
import WireSchema.Proofs.Directories
import WireSchema.Proofs.Interchange
import WireSchema.Proofs.NormalForm

/-! A command does what it has to do at the end, all of it or nothing, and only encoding writes, one
file. What it wrote can be decoded, and what is then printed can be encoded again. -/

namespace WireSchema

namespace Json

theorem Token.finish?_of_blank {s : Token.Scan} {c : Char} (hc : isBlank c = true) {tokens : List Token}
    (h : s.finish? = some tokens) : (s.step? c).bind Scan.finish? = some tokens := by
  obtain ⟨reading, read⟩ := s
  cases reading with
  | gap =>
    rw [Scan.step?, Scan.start?, if_pos hc]
    exact h
  | word word =>
    obtain ⟨t, ht, rfl⟩ := Option.map_eq_some_iff.mp h
    simp only [Scan.step?, hc, Bool.true_or, if_true, ht, Option.bind_some, Scan.start?]
    rfl
  | _ => cases h

theorem parse?_line {text : String} {document : Json} (h : parse? text = some document) :
    parse? (text ++ "\n") = some document := by
  obtain ⟨tokens, htokens, h⟩ := Option.bind_eq_some_iff.mp h
  obtain ⟨s, hs, hfinish⟩ := Option.bind_eq_some_iff.mp htokens
  have hend : (text ++ "\n").toList.foldlM Token.Scan.step? {} = s.step? '\n' := by
    rw [String.toList_append, List.foldlM_append, hs]
    exact bind_pure (s.step? '\n')
  have hblank : Token.scan? (text ++ "\n").toList = some tokens := by
    rw [Token.scan?, hend]
    exact Token.finish?_of_blank rfl hfinish
  rw [parse?, hblank]
  exact h

end Json

namespace Directory

def HoldsText (d : Directory) (path : String) (text : String) : Prop :=
  ∃ bytes, d.read path = .ok bytes ∧ fileText bytes = .ok text

def HoldsSchema (d : Directory) (path : String) (schema : Schema) : Prop :=
  ∃ text, d.HoldsText path text ∧ Schema.ofText text = .ok schema

def HoldsCodec (d : Directory) (path : String) (c : Codec) : Prop :=
  ∃ schema, d.HoldsSchema path schema ∧ Codec.ofSchema ∅ Codec.defaultDiscriminant schema = .ok c

def HoldsValue (d : Directory) (path : String) (v : Value) : Prop :=
  ∃ text, d.HoldsText path text ∧ ∃ document, Json.parse? text = some document ∧
    v = Value.ofJson document

variable {d d' : Directory} {path other : String}

theorem HoldsCodec.of_read {c : Codec} (h : d.HoldsCodec path c)
    (hread : ∀ bytes, d.read path = .ok bytes → d'.read path = .ok bytes) : d'.HoldsCodec path c := by
  obtain ⟨schema, ⟨text, ⟨bytes, hbytes, htext⟩, hschema⟩, hcodec⟩ := h
  exact ⟨schema, ⟨text, ⟨bytes, hread bytes hbytes, htext⟩, hschema⟩, hcodec⟩

theorem HoldsCodec.unique {c c' : Codec} (h : d.HoldsCodec path c) (h' : d.HoldsCodec path c') :
    c = c' := by
  obtain ⟨schema, ⟨text, ⟨bytes, hbytes, htext⟩, hschema⟩, hcodec⟩ := h
  obtain ⟨schema', ⟨text', ⟨bytes', hbytes', htext'⟩, hschema'⟩, hcodec'⟩ := h'
  cases hbytes.symm.trans hbytes'
  cases htext.symm.trans htext'
  cases hschema.symm.trans hschema'
  exact Except.ok.inj (hcodec.symm.trans hcodec')

end Directory

namespace Cli

open Directory

section

variable {ε ε' α β : Type} {m : ExceptT ε (StateM Directory) α}
  {P : Directory → α → Directory → Prop} {Q : Directory → α → Prop}

/-- Succeeds with a result and a directory exactly if `P` relates them to the directory before, and leaves
the directory as it is if it fails. -/
def AllOrNothing (m : ExceptT ε (StateM Directory) α) (P : Directory → α → Directory → Prop) : Prop :=
  ∀ d, (∀ a d', m.run.run d = (.ok a, d') ↔ P d a d') ∧
    ∀ e d', m.run.run d = (.error e, d') → d' = d

/-- Succeeds with exactly the results that satisfy `Q` and leaves the directory as it is. -/
def Finds (m : ExceptT ε (StateM Directory) α) (Q : Directory → α → Prop) : Prop :=
  AllOrNothing m fun d a d' => Q d a ∧ d' = d

theorem finds_iff : Finds m Q ↔ ∀ d, ∃ r, m.run.run d = (r, d) ∧ ∀ a, r = .ok a ↔ Q d a := by
  refine forall_congr' fun d => ⟨fun ⟨hok, herror⟩ => ?_, ?_⟩
  · rcases hrun : m.run.run d with ⟨e | a, d'⟩
    · obtain rfl := herror e d' hrun
      refine ⟨_, rfl, fun a => iff_of_false (fun h => nomatch h) fun ha => ?_⟩
      cases hrun.symm.trans ((hok a _).mpr ⟨ha, rfl⟩)
    · obtain ⟨ha, rfl⟩ := (hok a d').mp hrun
      refine ⟨_, rfl, fun b => ⟨fun h => Except.ok.inj h ▸ ha, fun hb => ?_⟩⟩
      exact congrArg Prod.fst (hrun.symm.trans ((hok b _).mpr ⟨hb, rfl⟩))
  · rintro ⟨r, hrun, hr⟩
    rw [hrun]
    refine ⟨fun a d' => ?_, fun e d' h => (Prod.mk.inj h).2.symm⟩
    rw [Prod.mk.injEq, hr a, eq_comm (a := d)]

theorem AllOrNothing.congr {P' : Directory → α → Directory → Prop} (h : AllOrNothing m P)
    (hP : ∀ d a d', P d a d' ↔ P' d a d') : AllOrNothing m P' :=
  fun d => ⟨fun a d' => ((h d).1 a d').trans (hP d a d'), (h d).2⟩

theorem AllOrNothing.adapt (h : AllOrNothing m P) (f : ε → ε') : AllOrNothing (m.adapt f) P := by
  intro d
  have hrun : (m.adapt f).run.run d = ((m.run.run d).1.mapError f, (m.run.run d).2) := rfl
  rw [hrun]
  rcases hbefore : m.run.run d with ⟨e | a, d'⟩
  · refine ⟨fun a d'' => iff_of_false (fun h => nomatch h) fun ha => ?_, fun e' d'' h' => ?_⟩
    · cases hbefore.symm.trans (((h d).1 a d'').mpr ha)
    · cases h'
      exact (h d).2 e d' hbefore
  · refine ⟨fun b d'' => ?_, fun e' d'' h' => nomatch h'⟩
    rw [← (h d).1 b d'', hbefore]
    constructor
    · intro hok
      cases hok
      rfl
    · intro hok
      cases hok
      rfl

theorem Finds.adapt (h : Finds m Q) (f : ε → ε') : Finds (m.adapt f) Q := AllOrNothing.adapt h f

theorem Finds.bind {k : α → ExceptT ε (StateM Directory) β} {R : α → Directory → β → Directory → Prop}
    (hm : Finds m Q) (hk : ∀ a, AllOrNothing (k a) (R a)) :
    AllOrNothing (m >>= k) fun d b d' => ∃ a, Q d a ∧ R a d b d' := by
  intro d
  obtain ⟨r, hrun, hr⟩ := finds_iff.mp hm d
  rw [run_bind, hrun]
  cases r with
  | error e =>
    refine ⟨fun b d' => iff_of_false (fun h => nomatch h) ?_, fun e' d' h => ?_⟩
    · rintro ⟨a, ha, -⟩
      cases (hr a).mpr ha
    · cases h
      rfl
  | ok a =>
    refine ⟨fun b d' => ((hk a d).1 b d').trans ⟨fun h => ⟨a, (hr a).mp rfl, h⟩, ?_⟩, (hk a d).2⟩
    rintro ⟨a', ha', h⟩
    cases (hr a').mpr ha'
    exact h

theorem Finds.bind_finds {k : α → ExceptT ε (StateM Directory) β} {R : α → Directory → β → Prop}
    (hm : Finds m Q) (hk : ∀ a, Finds (k a) (R a)) :
    Finds (m >>= k) fun d b => ∃ a, Q d a ∧ R a d b := by
  refine (hm.bind hk).congr fun d b d' => ?_
  simp only [← and_assoc, exists_and_right]

theorem AllOrNothing.bind_pure {m : ExceptT ε (StateM Directory) Unit}
    {P : Directory → Unit → Directory → Prop} (h : AllOrNothing m P) (b : β) :
    AllOrNothing (m >>= fun _ => pure b) fun d b' d' => b' = b ∧ P d () d' := by
  intro d
  rw [run_bind]
  rcases hrun : m.run.run d with ⟨e | _, d'⟩
  · refine ⟨fun b' d'' => iff_of_false (fun h => nomatch h) fun hb => ?_, fun e' d'' h' => ?_⟩
    · cases hrun.symm.trans (((h d).1 () d'').mpr hb.2)
    · cases h'
      exact (h d).2 e d' hrun
  · refine ⟨fun b' d'' => ?_, fun e' d'' h' => nomatch h'⟩
    change (Except.ok b, d') = (Except.ok b', d'') ↔ b' = b ∧ P d () d''
    rw [← (h d).1 () d'', hrun, Prod.mk.injEq, Prod.mk.injEq, Except.ok.injEq, eq_comm (a := b)]
    exact and_congr_right' (and_iff_right rfl).symm

theorem finds_pure (a : α) :
    Finds (pure a : ExceptT ε (StateM Directory) α) fun _ b => b = a :=
  finds_iff.mpr fun _ => ⟨.ok a, rfl, fun b => by rw [Except.ok.injEq, eq_comm]⟩

theorem finds_result (r : Except ε α) :
    Finds (ExceptT.mk (pure r) : ExceptT ε (StateM Directory) α) fun _ a => r = .ok a :=
  finds_iff.mpr fun _ => ⟨r, rfl, fun _ => Iff.rfl⟩

theorem finds_attempt (what : String) (describe : ε → Messages) (r : Except ε α) :
    Finds (attempt what describe r : Attempt (StateM Directory) α) fun _ a => r = .ok a :=
  finds_iff.mpr fun _ => ⟨_, rfl, fun _ => mapError_eq_ok_iff⟩

theorem finds_read (path : String) : Finds (access.read path) fun d bytes => d.read path = .ok bytes :=
  finds_iff.mpr fun d => ⟨d.read path, rfl, fun _ => Iff.rfl⟩

theorem allOrNothing_write (path : String) (bytes : List UInt8) :
    AllOrNothing (access.write path bytes) fun d _ d' => d.write path bytes = .ok d' := by
  intro d
  rcases hwrite : d.write path bytes with fault | d''
  · have hrun : (access.write path bytes).run.run d = (.error fault, d) := by
      simp only [access, ExceptT.run, ExceptT.mk, StateT.run, hwrite]
    rw [hrun]
    refine ⟨fun _ d' => iff_of_false (fun h => ?_) fun h => ?_, fun e d' h => ?_⟩
    · cases h
    · cases hwrite.symm.trans h
    · exact (Prod.mk.inj h).2.symm
  · have hrun : (access.write path bytes).run.run d = (.ok (), d'') := by
      simp only [access, ExceptT.run, ExceptT.mk, StateT.run, hwrite]
    rw [hrun]
    refine ⟨fun _ d' => ⟨fun h => ?_, fun h => ?_⟩, fun e d' h => ?_⟩
    · cases h
      exact hwrite
    · cases hwrite.symm.trans h
      rfl
    · cases h

end

theorem finds_readText (path : String) :
    Finds (access.readText path) fun d text => d.HoldsText path text :=
  (finds_read path).bind_finds fun bytes => finds_result (fileText bytes)

theorem finds_loadSchema (path : String) :
    Finds (loadSchema access path) fun d schema => d.HoldsSchema path schema :=
  (((finds_readText path).adapt _).bind_finds fun _ => finds_result _).adapt _

theorem finds_loadCodec (path : String) :
    Finds (loadCodec access path) fun d c => d.HoldsCodec path c :=
  (finds_loadSchema path).bind_finds fun _ => finds_attempt _ _ _

theorem finds_loadValue (path : String) :
    Finds (loadValue access path) fun d v => d.HoldsValue path v := by
  refine ((finds_readText path).adapt _).bind_finds fun text => ?_
  cases Json.parse? text with
  | none =>
    refine finds_iff.mpr fun d => ⟨_, rfl, fun v => iff_of_false (fun h => nomatch h) ?_⟩
    rintro ⟨document, hdocument, -⟩
    cases hdocument
  | some document =>
    refine AllOrNothing.congr (finds_pure _) fun d v d' => and_congr_left' ⟨fun h => ⟨_, rfl, h⟩, ?_⟩
    rintro ⟨_, hdocument, h⟩
    cases hdocument
    exact h

/-- What a command prints and what becomes of the directory, if it succeeds. -/
def Command.Effect : Command → Directory → String → Directory → Prop
  | .check path, d, printed, d' =>
    (∃ c, d.HoldsCodec path c ∧ printed = s!"✅ Schema is valid: {path}\n") ∧ d' = d
  | .inspect path, d, printed, d' =>
    (∃ schema, d.HoldsSchema path schema ∧
      ∃ c, Codec.ofSchema ∅ Codec.defaultDiscriminant schema = .ok c ∧
        let size := match c.fixedSize? with
          | some n => s!"{n} bytes for every value"
          | none => "depends on the value"
        printed = schema.widths ++ s!"Encoded size: {size}\n") ∧ d' = d
  | .size path value, d, printed, d' =>
    (∃ c, d.HoldsCodec path c ∧ ∃ v, d.HoldsValue value v ∧ ∃ out, c.encode v = .ok out ∧
      printed = s!"{out.length}\n") ∧ d' = d
  | .encode path value output, d, printed, d' =>
    ∃ c, d.HoldsCodec path c ∧ ∃ v, d.HoldsValue value v ∧ ∃ out, c.encode v = .ok out ∧
      printed = s!"✅ Wrote {out.length} bytes to {output}\n" ∧ d.write output out = .ok d'
  | .decode path input, d, printed, d' =>
    (∃ c, d.HoldsCodec path c ∧ ∃ bytes, d.read input = .ok bytes ∧ ∃ v, c.decode bytes = .ok v ∧
      printed = (Json.ofValue v).pretty ++ "\n") ∧ d' = d

theorem Command.allOrNothing_run (command : Command) :
    AllOrNothing (command.run access) command.Effect := by
  cases command with
  | check path => exact (finds_loadCodec path).bind_finds fun _ => finds_pure _
  | inspect path =>
    exact (finds_loadSchema path).bind_finds fun _ => (finds_attempt _ _ _).bind_finds fun _ =>
      finds_pure _
  | size path value =>
    exact (finds_loadCodec path).bind_finds fun _ => (finds_loadValue value).bind_finds fun _ =>
      (finds_attempt _ _ _).bind_finds fun _ => finds_pure _
  | encode path value output =>
    exact (finds_loadCodec path).bind fun _ => (finds_loadValue value).bind fun _ =>
      (finds_attempt _ _ _).bind fun _ => ((allOrNothing_write output _).adapt _).bind_pure _
  | decode path input =>
    exact (finds_loadCodec path).bind_finds fun _ => ((finds_read input).adapt _).bind_finds fun _ =>
      (finds_attempt _ _ _).bind_finds fun _ => finds_pure _

variable {d d' : Directory} {args : List String} {command : Command} {printed : String}

def runIn (d : Directory) (args : List String) : Outcome × Directory := (run access args).run d

theorem runIn_command (h : request? args = some (.command command)) (d : Directory) :
    runIn d args = match (command.run access).run.run d with
      | (.ok printed, d') => (⟨0, printed, []⟩, d')
      | (.error messages, d') => (⟨1, "", messages⟩, d') := by
  rw [runIn, run]
  simp only [h, StateT.run_bind]
  rcases (command.run access).run.run d with ⟨_ | _, _⟩ <;> rfl

theorem runIn_of_effect (h : request? args = some (.command command))
    (heffect : command.Effect d printed d') : runIn d args = (⟨0, printed, []⟩, d') := by
  rw [runIn_command h, (command.allOrNothing_run d).1 printed d' |>.mpr heffect]

theorem effect_or_nothing (h : request? args = some (.command command)) (d : Directory) :
    (∃ printed d', command.Effect d printed d' ∧ runIn d args = (⟨0, printed, []⟩, d')) ∨
      ∃ messages, runIn d args = (⟨1, "", messages⟩, d) := by
  obtain ⟨hok, herror⟩ := command.allOrNothing_run d
  rw [runIn_command h]
  rcases hrun : (command.run access).run.run d with ⟨messages | printed, d'⟩
  · obtain rfl := herror messages d' hrun
    exact Or.inr ⟨messages, rfl⟩
  · exact Or.inl ⟨printed, d', (hok printed d').mp hrun, rfl⟩

theorem effect_or_unchanged (d : Directory) (args : List String) :
    (∃ command printed d', request? args = some (.command command) ∧ command.Effect d printed d' ∧
        runIn d args = (⟨0, printed, []⟩, d')) ∨
      (runIn d args).2 = d ∧ ((runIn d args).1.exitCode ≠ 0 → (runIn d args).1.output = "") := by
  cases hrequest : request? args with
  | none =>
    rw [runIn, run]
    simp only [hrequest]
    exact Or.inr ⟨rfl, fun _ => rfl⟩
  | some request =>
    cases request with
    | version =>
      rw [runIn, run]
      simp only [hrequest]
      exact Or.inr ⟨rfl, fun hexit => (hexit rfl).elim⟩
    | command command =>
      rcases effect_or_nothing hrequest d with ⟨printed, d', heffect, hrun⟩ | ⟨messages, hrun⟩
      · exact Or.inl ⟨command, printed, d', rfl, heffect, hrun⟩
      · rw [hrun]
        exact Or.inr ⟨rfl, fun _ => rfl⟩

theorem Command.Effect.unchanged (h : command.Effect d printed d')
    (hencode : ∀ path value output, command ≠ .encode path value output) : d' = d := by
  cases command with
  | encode path value output => exact (hencode path value output rfl).elim
  | _ => exact h.2

/-- Bytes that were encoded are decoded, and the text of what was decoded has these bytes again. All that
is asked of the way documents are read and printed is that the end of a line does not matter and that the
text is read as the document that was printed. -/
theorem exists_decode_and_back (parse : String → Option Json) (print : Json → String)
    (hline : ∀ text document, parse text = some document → parse (text ++ "\n") = some document)
    {schema : Schema} {c : Codec} {discriminant : String}
    (h : Codec.ofSchema ∅ discriminant schema = .ok c) {v : Value} {out : List UInt8}
    (hout : c.encode v = .ok out) : ∃ w, c.decode out = .ok w ∧
      (w.isFinite = true → parse (print (Json.ofValue w)) = some (Json.ofValue w) →
        ∃ document, parse (print (Json.ofValue w) ++ "\n") = some document ∧
          c.encode (Value.ofJson document) = .ok out) := by
  have hplain := Codec.isPlain_of_empty h
  have hc : Compiles (fun _ => False) discriminant schema c.layout := hplain.compiles h
  have hencode : ∀ v, c.encode v = .ok out ↔ schema.bytes? discriminant v = some out := by
    intro v
    rw [Codec.encode_eq_ok_iff (hplain.compiles h), Layout.output?_write hc]
  rw [hencode] at hout
  refine ⟨schema.normal discriminant v,
    (Codec.decode_eq_ok_iff hc).mpr (Layout.yields_of_bytes? hc hout), fun hfinite hparse => ?_⟩
  refine ⟨_, hline _ _ hparse, ?_⟩
  rw [hencode, ← Value.viaJson, schema.bytes?_viaJson hfinite]
  exact Layout.bytes?_normal hc hout

/-- What was encoded into a file is decoded from there, and what is printed then can be saved and encoded
again. -/
theorem exists_decode_and_again {path output : String} {c : Codec} (hcodec : d.HoldsCodec path c)
    {v : Value} {out : List UInt8} (hout : c.encode v = .ok out) (hwrite : d.write output out = .ok d')
    (hapart : ¬d.SameFile path output) {args' : List String}
    (hdecode : request? args' = some (.command (.decode path output))) :
    ∃ w, c.decode out = .ok w ∧
      runIn d' args' = (⟨0, (Json.ofValue w).pretty ++ "\n", []⟩, d') ∧
      (w.isFinite = true → Json.parse? (Json.ofValue w).pretty = some (Json.ofValue w) →
        ∀ saved d₁ args₁, d'.write saved (textBytes ((Json.ofValue w).pretty ++ "\n")) = .ok d₁ →
          ¬d'.SameFile path saved → request? args₁ = some (.command (.encode path saved output)) →
          (runIn d₁ args₁).1.exitCode = 0 ∧ (runIn d₁ args₁).2.read output = .ok out) := by
  have hcodec' : d'.HoldsCodec path c :=
    hcodec.of_read fun bytes hbytes => read_of_write_other hwrite hapart hbytes
  obtain ⟨schema, -, hschema⟩ := hcodec
  obtain ⟨w, hw, hback⟩ := exists_decode_and_back Json.parse? Json.pretty
    (fun _ _ => Json.parse?_line) hschema hout
  refine ⟨w, hw, runIn_of_effect hdecode
    ⟨⟨c, hcodec', out, read_of_write hwrite, w, hw, rfl⟩, rfl⟩, ?_⟩
  intro hfinite hparse saved d₁ args₁ hsave hapart' hagain
  have hcodec₁ : d₁.HoldsCodec path c :=
    hcodec'.of_read fun bytes hbytes => read_of_write_other hsave hapart' hbytes
  obtain ⟨document, hdocument, hsame⟩ := hback hfinite hparse
  have hvalue₁ : d₁.HoldsValue saved (Value.ofJson document) :=
    ⟨_, ⟨_, read_of_write hsave, fileText_textBytes _⟩, document, hdocument, rfl⟩
  obtain ⟨d₂, hwrite₂⟩ := exists_write_again hwrite hsave out
  rw [runIn_of_effect hagain ⟨c, hcodec₁, _, hvalue₁, out, hsame, rfl, hwrite₂⟩]
  exact ⟨rfl, read_of_write hwrite₂⟩

/-- A command that fails prints nothing and leaves all files as they are, and one that succeeds changes none
either unless it encodes: then the output file has the bytes of the value, and no other file has changed.
If this was not the file of the schema, the bytes can be decoded, and what is printed then can be saved in
any other file than that of the schema and encoded to the same bytes, provided that its floats are finite
and that the text is read as the document that was printed. -/
theorem run_all_or_nothing (d : Directory) (args : List String) :
    ((runIn d args).1.exitCode ≠ 0 → (runIn d args).1.output = "" ∧ (runIn d args).2 = d) ∧
    ((∀ path value output, request? args ≠ some (.command (.encode path value output))) →
      (runIn d args).2 = d) ∧
    ∀ path value output, request? args = some (.command (.encode path value output)) →
      ∀ outcome d', runIn d args = (outcome, d') → outcome.exitCode = 0 →
        ∃ c v out names, d.HoldsCodec path c ∧ d.HoldsValue value v ∧ c.encode v = .ok out ∧
          d.Leads output names ∧ d'.files.lookup names = some out ∧
          (∀ other, other ≠ names → d'.files.lookup other = d.files.lookup other) ∧
          (¬d.SameFile path output →
            ∀ args', request? args' = some (.command (.decode path output)) →
            ∃ w, c.decode out = .ok w ∧
              runIn d' args' = (⟨0, (Json.ofValue w).pretty ++ "\n", []⟩, d') ∧
              (w.isFinite = true → Json.parse? (Json.ofValue w).pretty = some (Json.ofValue w) →
                ∀ saved d₁ args₁,
                  d'.write saved (textBytes ((Json.ofValue w).pretty ++ "\n")) = .ok d₁ →
                  ¬d'.SameFile path saved →
                  request? args₁ = some (.command (.encode path saved output)) →
                  (runIn d₁ args₁).1.exitCode = 0 ∧ (runIn d₁ args₁).2.read output = .ok out)) := by
  refine ⟨fun hexit => ?_, fun hencode => ?_, ?_⟩
  · rcases effect_or_unchanged d args with ⟨_, _, _, -, -, hrun⟩ | ⟨hunchanged, hprinted⟩
    · rw [hrun] at hexit
      exact (hexit rfl).elim
    · exact ⟨hprinted hexit, hunchanged⟩
  · rcases effect_or_unchanged d args with ⟨command, printed, d', hrequest, heffect, hrun⟩ | hunchanged
    · rw [hrun]
      refine heffect.unchanged fun path value output heq => ?_
      exact hencode path value output (heq ▸ hrequest)
    · exact hunchanged.1
  · intro path value output hrequest outcome d' hrun hexit
    rcases effect_or_nothing hrequest d with ⟨printed, d'', heffect, hrun'⟩ | ⟨messages, hrun'⟩
    · cases hrun.symm.trans hrun'
      obtain ⟨c, hcodec, v, hvalue, out, hout, -, hwrite⟩ := heffect
      obtain ⟨-, names, hleads, -, rfl⟩ := write_eq_ok_iff.mp hwrite
      refine ⟨c, v, out, names, hcodec, hvalue, hout, hleads, Assoc.lookup_insert_self _ _ _,
        fun other hother => lookup_put_of_ne hother, fun hapart args' hdecode => ?_⟩
      exact exists_decode_and_again hcodec hout hwrite hapart hdecode
    · cases hrun.symm.trans hrun'
      cases hexit

private def bench : Directory := ⟨[(["s"], textBytes "\"uint8\""), (["v"], textBytes "7")]⟩

private def byteCodec : Codec := .ofLayout ∅ (.scalar .uint8) (.scalar .uint8)

theorem run_all_or_nothing_seven :
    request? ["encode", "-s", "s", "-j", "v", "-o", "o"] = some (.command (.encode "s" "v" "o")) ∧
      runIn bench ["encode", "-s", "s", "-j", "v", "-o", "o"] =
        (⟨0, "✅ Wrote 1 bytes to o\n", []⟩, bench.put ["o"] [7]) ∧
      (bench.put ["o"] [7]).write "j" (textBytes "7\n") =
        .ok ((bench.put ["o"] [7]).put ["j"] (textBytes "7\n")) ∧
      (runIn ((bench.put ["o"] [7]).put ["j"] (textBytes "7\n"))
        ["encode", "-s", "s", "-j", "j", "-o", "o"]).1.exitCode = 0 := by
  have hencode : request? ["encode", "-s", "s", "-j", "v", "-o", "o"] =
    some (.command (.encode "s" "v" "o")) := rfl
  have hrun : runIn bench ["encode", "-s", "s", "-j", "v", "-o", "o"] =
    (⟨0, "✅ Wrote 1 bytes to o\n", []⟩, bench.put ["o"] [7]) := rfl
  have hsave : (bench.put ["o"] [7]).write "j" (textBytes "7\n") =
    .ok ((bench.put ["o"] [7]).put ["j"] (textBytes "7\n")) := rfl
  have hcodec : bench.HoldsCodec "s" byteCodec :=
    ⟨.scalar .uint8, ⟨"\"uint8\"", ⟨_, rfl, fileText_textBytes _⟩, rfl⟩, rfl⟩
  have happart : ∀ {d : Directory} {path other : String} {names names' : List String},
      d.Leads path names → d.Leads other names' → names ≠ names' → ¬d.SameFile path other := by
    rintro d path other names names' h h' hne ⟨both, hboth, hboth'⟩
    exact hne ((h.unique hboth).trans (hboth'.unique h'))
  obtain ⟨-, -, hencoded⟩ := run_all_or_nothing bench ["encode", "-s", "s", "-j", "v", "-o", "o"]
  obtain ⟨c, v, out, names, hc, -, -, hleads, hfile, -, hdecode⟩ :=
    hencoded _ _ _ hencode _ _ hrun rfl
  obtain rfl := hc.unique hcodec
  obtain rfl : names = ["o"] := hleads.unique rfl
  obtain rfl : [7] = out := Option.some.inj hfile
  obtain ⟨w, hw, -, hagain⟩ := hdecode (happart rfl rfl (by decide))
    ["decode", "-s", "s", "-i", "o"] rfl
  obtain rfl : Value.u8 7 = w := Except.ok.inj hw
  exact ⟨hencode, hrun, hsave, (hagain rfl rfl "j" _ ["encode", "-s", "s", "-j", "j", "-o", "o"] hsave
    (happart rfl rfl (by decide)) rfl).1⟩

end Cli

end WireSchema
