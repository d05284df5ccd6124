import WireSchema.Proofs.Streams

/-! A text is read where a count stands with as many units behind it, every surrogate among them beside
its partner, and writing it gives back the very bytes that it was read from. -/

namespace WireSchema

namespace Utf16

/-- Right behind every high surrogate stands a low one, and right in front of every low one a high one. -/
structure Paired (us : List UInt16) : Prop where
  high : ∀ i u, us[i]? = some u → isHigh u = true → ∃ v, us[i + 1]? = some v ∧ isLow v = true
  low : ∀ i v, us[i]? = some v → isLow v = true → ∃ j u, i = j + 1 ∧ us[j]? = some u ∧ isHigh u = true

theorem not_isLow_of_isHigh {u : UInt16} (h : isHigh u = true) : ¬isLow u = true := by
  simp only [isHigh, isLow, Bool.and_eq_true, decide_eq_true_eq] at h ⊢
  omega

theorem paired_nil : Paired [] := by
  constructor <;> intro i u hu <;> cases hu

theorem paired_pair_iff {u v : UInt16} (hu : isHigh u = true) (hv : isLow v = true)
    (rest : List UInt16) : Paired (u :: v :: rest) ↔ Paired rest := by
  constructor
  · intro h
    refine ⟨fun i x hx hhigh => h.high (i + 2) x hx hhigh, fun i x hx hlow => ?_⟩
    obtain ⟨j, y, hj, hy, hhigh⟩ := h.low (i + 2) x hx hlow
    obtain rfl : j = i + 1 := by omega
    cases i with
    | zero =>
      cases hy
      exact absurd hv (not_isLow_of_isHigh hhigh)
    | succ i => exact ⟨i, y, rfl, hy, hhigh⟩
  · intro h
    constructor
    · rintro (_ | _ | i) x hx hhigh
      · exact ⟨v, rfl, hv⟩
      · cases hx
        exact absurd hv (not_isLow_of_isHigh hhigh)
      · exact h.high i x hx hhigh
    · rintro (_ | _ | i) x hx hlow
      · cases hx
        exact absurd hlow (not_isLow_of_isHigh hu)
      · exact ⟨0, u, rfl, rfl, hu⟩
      · obtain ⟨j, y, rfl, hy, hhigh⟩ := h.low i x hx hlow
        exact ⟨j + 2, y, rfl, hy, hhigh⟩

theorem paired_single_iff {u : UInt16} (hhigh : ¬isHigh u = true) (hlow : ¬isLow u = true)
    (rest : List UInt16) : Paired (u :: rest) ↔ Paired rest := by
  constructor
  · intro h
    refine ⟨fun i x hx => h.high (i + 1) x hx, fun i x hx hx' => ?_⟩
    obtain ⟨j, y, hj, hy, hy'⟩ := h.low (i + 1) x hx hx'
    obtain rfl : j = i := by omega
    cases j with
    | zero =>
      cases hy
      exact absurd hy' hhigh
    | succ j => exact ⟨j, y, rfl, hy, hy'⟩
  · intro h
    constructor
    · rintro (_ | i) x hx hx'
      · cases hx
        exact absurd hx' hhigh
      · exact h.high i x hx hx'
    · rintro (_ | i) x hx hx'
      · cases hx
        exact absurd hx' hlow
      · obtain ⟨j, y, rfl, hy, hy'⟩ := h.low i x hx hx'
        exact ⟨j + 1, y, rfl, hy, hy'⟩

theorem wellFormed_iff_paired (us : List UInt16) : WellFormed us ↔ Paired us := by
  fun_induction WellFormed us with
  | case1 => exact iff_of_true trivial paired_nil
  | case2 u hu v rest ih =>
    by_cases hv : isLow v = true
    · rw [and_iff_right hv, ih, paired_pair_iff hu hv]
    · refine iff_of_false (fun h => hv h.1) fun h => ?_
      obtain ⟨x, hx, hlow⟩ := h.high 0 u rfl hu
      cases hx
      exact hv hlow
  | case3 u hu =>
    refine iff_of_false id fun h => ?_
    obtain ⟨x, hx, -⟩ := h.high 0 u rfl hu
    cases hx
  | case4 u rest hu ih =>
    by_cases hlow : isLow u = true
    · refine iff_of_false (fun h => ?_) fun h => ?_
      · rw [hlow] at h
        cases h.1
      · obtain ⟨j, -, hj, -⟩ := h.low 0 u rfl hlow
        cases hj
    · rw [and_iff_right (Bool.eq_false_iff.mpr hlow), ih, paired_single_iff hu hlow]

theorem isSome_decode?_iff (us : List UInt16) : (decode? us).isSome = true ↔ WellFormed us := by
  fun_induction decode? us with
  | case1 => simp [WellFormed]
  | case2 u hu v rest hv ih => simp [WellFormed, hu, hv, ih]
  | case3 u hu v rest hv => simp [WellFormed, hu, hv]
  | case4 u hu => simp [WellFormed, hu]
  | case5 u rest hu hlow =>
    unfold WellFormed
    simp [hu, hlow]
  | case6 u rest hu hlow ih =>
    unfold WellFormed
    simp [hu, hlow, ih]

end Utf16

namespace Read

open Utf16

def unitCount (high low : UInt8) : Nat := 256 * high.toNat + low.toNat

/-- The count of a text stands next, and behind it as many units as it tells. -/
structure TextAhead (c : Cursor) (high low : UInt8) (body rest : List UInt8) : Prop where
  bytes : c.rest = high :: low :: (body ++ rest)
  length : body.length = 2 * unitCount high low

section

variable {high low : UInt8} {body rest : List UInt8}

@[simp] theorem toNat_unitCount (high low : UInt8) :
    (UInt16.ofNat (unitCount high low)).toNat = unitCount high low := by
  have hhigh := high.toNat_lt
  have hlow := low.toNat_lt
  rw [UInt16.toNat_ofNat', unitCount, Nat.mod_eq_of_lt (by omega)]

theorem bigEndian_unitCount (high low : UInt8) :
    Bytes.bigEndian 2 (unitCount high low) = [high, low] := by
  have hword : Bytes.ofBigEndian [high, low] = unitCount high low := by
    simp [Bytes.ofBigEndian, unitCount]
  exact hword ▸ Bytes.bigEndian_ofBigEndian [high, low]

theorem run_u16 (position : Nat) (high low : UInt8) (rest : List UInt8) :
    u16.run.run ⟨position, high :: low :: rest⟩ =
      (.ok (UInt16.ofNat (unitCount high low)), ⟨position + 2, rest⟩) := by
  have hyields : u16.Yields [high, low] (UInt16.ofNat (unitCount high low)) := by
    rw [yields_u16_iff, toNat_unitCount, bigEndian_unitCount]
  exact hyields position rest

theorem run_text_of_no_count {c : Cursor} (h : c.remaining < 2) :
    text.run.run c = (.error (.outOfBounds 2 c.remaining), c) := by
  have hshort : (c.rest.take 2).length ≠ 2 := by
    unfold Cursor.remaining at h
    rw [List.length_take]
    omega
  unfold text u16 word
  rw [run_bind, run_map, run_map, run_bytes, if_neg hshort]
  rfl

theorem run_text_of_missing (position : Nat) (h : body.length < 2 * unitCount high low) :
    text.run.run ⟨position, high :: low :: body⟩ =
      (.error (.outOfBounds (2 * unitCount high low) body.length), ⟨position + 2, body⟩) := by
  have hshort : (body.take (2 * unitCount high low)).length ≠ 2 * unitCount high low := by
    rw [List.length_take]
    omega
  unfold text
  rw [run_bind, run_u16]
  simp only [toNat_unitCount]
  rw [run_bind, run_bytes, if_neg hshort]
  rfl

theorem TextAhead.run_text {c : Cursor} (h : TextAhead c high low body rest) :
    text.run.run c =
      (match decode? (units body) with
        | some s => .ok (String.ofList s)
        | none => .error .illFormedText,
      ⟨c.position + (2 + 2 * unitCount high low), rest⟩) := by
  obtain ⟨position, ahead⟩ := c
  obtain ⟨hahead, hlength⟩ := h
  subst hahead
  have htake : ((body ++ rest).take (2 * unitCount high low)) = body := List.take_left' hlength
  have hdrop : ((body ++ rest).drop (2 * unitCount high low)) = rest := List.drop_left' hlength
  unfold text
  rw [run_bind, run_u16]
  simp only [toNat_unitCount]
  rw [run_bind, run_bytes, htake, if_pos hlength, hdrop]
  simp only [Nat.add_assoc]
  cases decode? (units body) <;> rfl

theorem textAhead_cases (c : Cursor) :
    c.remaining < 2 ∨
      (∃ high low body, c.rest = high :: low :: body ∧ body.length < 2 * unitCount high low) ∨
      ∃ high low body rest, TextAhead c high low body rest := by
  obtain ⟨position, ahead⟩ := c
  match ahead with
  | [] => exact Or.inl (by simp [Cursor.remaining])
  | [_] => exact Or.inl (by simp [Cursor.remaining])
  | high :: low :: ahead =>
    by_cases h : ahead.length < 2 * unitCount high low
    · exact Or.inr (Or.inl ⟨high, low, ahead, rfl, h⟩)
    · refine Or.inr (Or.inr ⟨high, low, ahead.take (2 * unitCount high low),
        ahead.drop (2 * unitCount high low), ?_, ?_⟩)
      · rw [List.take_append_drop]
      · exact List.length_take_of_le (Nat.le_of_not_lt h)

theorem TextAhead.exists_text {c : Cursor} (h : TextAhead c high low body rest)
    (hpaired : Paired (units body)) : ∃ s,
      text.run.run c = (.ok s, ⟨c.position + (2 + 2 * unitCount high low), rest⟩) ∧
      Utf16.length s = unitCount high low ∧
      Write.textBytes (encode s.toList) = high :: low :: body := by
  rw [← wellFormed_iff_paired, ← isSome_decode?_iff, Option.isSome_iff_exists] at hpaired
  obtain ⟨s, hs⟩ := hpaired
  obtain ⟨hbytes, hcount⟩ := unitBytes_units h.length
  have hunits : encode s = units body := encode_of_decode? hs
  refine ⟨String.ofList s, ?_, ?_, ?_⟩
  · rw [h.run_text, hs]
  · rw [Utf16.length, String.toList_ofList, hunits, hcount]
  · rw [String.toList_ofList, hunits, Write.textBytes, hcount, bigEndian_unitCount]
    exact congrArg (high :: low :: ·) hbytes

theorem TextAhead.run_text_of_not_paired {c : Cursor} (h : TextAhead c high low body rest)
    (hpaired : ¬Paired (units body)) : (text.run.run c).1 = .error .illFormedText := by
  rw [← wellFormed_iff_paired, ← isSome_decode?_iff, Bool.not_eq_true, Option.isSome_eq_false_iff,
    Option.isNone_iff_eq_none] at hpaired
  rw [h.run_text, hpaired]

theorem exists_outOfBounds_of_not_ahead {c : Cursor}
    (h : ¬∃ high low body rest, TextAhead c high low body rest) :
    ∃ needed available, (text.run.run c).1 = .error (.outOfBounds needed available) := by
  rcases textAhead_cases c with hcount | ⟨high, low, body, hrest, hbody⟩ | hahead
  · exact ⟨_, _, congrArg Prod.fst (run_text_of_no_count hcount)⟩
  · obtain ⟨position, ahead⟩ := c
    subst hrest
    exact ⟨_, _, congrArg Prod.fst (run_text_of_missing position hbody)⟩
  · exact absurd hahead h

end

/-- A text is read exactly where a count and as many units as it tells stand next and the surrogates among
them pair up. Then just those bytes are consumed, writing the text appends the same bytes to any writer, and
its size is their number. A surrogate without its partner is told as such, and so are missing bytes. -/
theorem text_read_iff_paired (c : Cursor) :
    ((∃ s, (text.run.run c).1 = .ok s) ↔
      ∃ high low body rest, TextAhead c high low body rest ∧ Paired (units body)) ∧
    (∀ high low body rest, TextAhead c high low body rest →
      (Paired (units body) → ∃ s,
        text.run.run c = (.ok s, ⟨c.position + (2 + 2 * unitCount high low), rest⟩) ∧
        (Write.text s).Appends (high :: low :: body) ∧
        Write.textSize s = 2 + 2 * unitCount high low) ∧
      (¬Paired (units body) → (text.run.run c).1 = .error .illFormedText)) ∧
    ((¬∃ high low body rest, TextAhead c high low body rest) →
      ∃ needed available, (text.run.run c).1 = .error (.outOfBounds needed available)) := by
  refine ⟨⟨?_, ?_⟩, ?_, exists_outOfBounds_of_not_ahead⟩
  · rintro ⟨s, hs⟩
    by_contra hnone
    by_cases hahead : ∃ high low body rest, TextAhead c high low body rest
    · obtain ⟨high, low, body, rest, hahead⟩ := hahead
      have hunpaired : ¬Paired (units body) := fun h => hnone ⟨high, low, body, rest, hahead, h⟩
      rw [hahead.run_text_of_not_paired hunpaired] at hs
      cases hs
    · obtain ⟨needed, available, hout⟩ := exists_outOfBounds_of_not_ahead hahead
      rw [hout] at hs
      cases hs
  · rintro ⟨high, low, body, rest, hahead, hpaired⟩
    obtain ⟨s, hrun, -⟩ := hahead.exists_text hpaired
    exact ⟨s, congrArg Prod.fst hrun⟩
  · intro high low body rest hahead
    refine ⟨fun hpaired => ?_, hahead.run_text_of_not_paired⟩
    obtain ⟨s, hrun, hlength, hbytes⟩ := hahead.exists_text hpaired
    have hfits : (encode s.toList).length ≤ Write.maxUnits := by
      have hcount := (UInt16.ofNat (unitCount high low)).toNat_lt
      rw [toNat_unitCount, ← hlength] at hcount
      exact Nat.le_of_lt_succ hcount
    refine ⟨s, hrun, ?_, ?_⟩
    · rw [Write.text, if_pos hfits, hbytes]
      exact Write.appends_bytes _
    · rw [Write.textSize, hlength]

/-- A pair of surrogates between other bytes is read and written back, and without its second half it is
told to be ill-formed. -/
theorem text_read_iff_paired_face :
    (∃ s, text.run.run ⟨1, [0, 2, 216, 61, 222, 0, 7]⟩ = (.ok s, ⟨7, [7]⟩) ∧
      (Write.text s).Appends [0, 2, 216, 61, 222, 0] ∧ Write.textSize s = 6) ∧
    (text.run.run ⟨1, [0, 1, 216, 61, 222, 0, 7]⟩).1 = .error .illFormedText ∧
    ∃ needed available,
      (text.run.run ⟨1, [0, 2, 216, 61]⟩).1 = .error (.outOfBounds needed available) := by
  refine ⟨?_, ?_, ?_⟩
  · exact ((text_read_iff_paired ⟨1, [0, 2, 216, 61, 222, 0, 7]⟩).2.1 0 2 [216, 61, 222, 0] [7]
      ⟨rfl, rfl⟩).1 ((paired_pair_iff rfl rfl []).mpr paired_nil)
  · refine ((text_read_iff_paired ⟨1, [0, 1, 216, 61, 222, 0, 7]⟩).2.1 0 1 [216, 61] [222, 0, 7]
      ⟨rfl, rfl⟩).2 fun h => ?_
    obtain ⟨v, hv, -⟩ := h.high 0 _ rfl rfl
    cases hv
  · refine (text_read_iff_paired ⟨1, [0, 2, 216, 61]⟩).2.2 ?_
    rintro ⟨high, low, body, rest, hbytes, hlength⟩
    obtain ⟨rfl, rfl, hbody⟩ : 0 = high ∧ 2 = low ∧ [216, 61] = body ++ rest := by
      simpa using hbytes
    have hheld := congrArg List.length hbody
    rw [List.length_append, hlength] at hheld
    simp only [unitCount, List.length_cons, List.length_nil] at hheld
    have htold : (0 : UInt8).toNat = 0 ∧ (2 : UInt8).toNat = 2 := ⟨rfl, rfl⟩
    omega

end Read

end WireSchema
