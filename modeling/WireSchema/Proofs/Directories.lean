import WireSchema.Proofs.WellFormed
import WireSchema.Storage.Directory

/-! Writing a file makes new directories but ends none, so what a path leads to stays the same, and of
all files only the one that is written has new bytes. -/

namespace WireSchema

def textBytes (text : String) : List UInt8 := text.toUTF8.data.toList

theorem fileText_textBytes (text : String) : fileText (textBytes text) = .ok text := by
  have hread : String.fromUTF8? text.toUTF8 = some text := dif_pos text.isValidUTF8
  rw [fileText, textBytes, Array.toArray_toList, hread]

namespace Directory

variable {d d' : Directory} {path : String} {names : List String} {bytes : List UInt8}

/-- The path leads down to the file, or place for a file, of these names. -/
def Leads (d : Directory) (path : String) (names : List String) : Prop :=
  d.follow path (pathNames path) = .ok (.inside names)

/-- Both paths lead to one file. -/
def SameFile (d : Directory) (path other : String) : Prop :=
  ∃ names, d.Leads path names ∧ d.Leads other names

def put (d : Directory) (names : List String) (bytes : List UInt8) : Directory :=
  ⟨Assoc.insert names bytes d.files⟩

theorem Leads.unique {names' : List String} (h : d.Leads path names) (h' : d.Leads path names') :
    names = names' := by
  cases h.symm.trans h'
  rfl

theorem read_eq_ok_iff :
    d.read path = .ok bytes ↔ ∃ names, d.Leads path names ∧ d.files.lookup names = some bytes := by
  rw [read, bind_eq_ok_iff]
  constructor
  · rintro ⟨place, hplace, h⟩
    cases place with
    | inside names =>
      cases hfile : d.files.lookup names with
      | none =>
        simp only [hfile] at h
        cases h
      | some held =>
        simp only [hfile] at h
        cases h
        exact ⟨names, hplace, hfile⟩
    | above => cases h
    | beyond => cases h
  · rintro ⟨names, hleads, hfile⟩
    refine ⟨_, hleads, ?_⟩
    simp only [hfile]

theorem write_eq_ok_iff : d.write path bytes = .ok d' ↔ path.toList.getLast? ≠ some '/' ∧
    ∃ names, d.Leads path names ∧ d.isDirectory (.inside names) = false ∧ d' = d.put names bytes := by
  simp only [write]
  split
  · rename_i hslash
    refine iff_of_false (fun h => ?_) (fun h => h.1 hslash)
    obtain ⟨place, -, h⟩ := bind_eq_ok_iff.mp h
    cases h
  · rename_i hslash
    rw [bind_eq_ok_iff]
    constructor
    · rintro ⟨place, hplace, h⟩
      cases place with
      | inside names =>
        simp only at h
        split at h
        · cases h
        · rename_i hnot
          cases h
          exact ⟨hslash, names, hplace, Bool.eq_false_iff.mpr hnot, rfl⟩
      | above => cases h
      | beyond => cases h
    · rintro ⟨-, names, hleads, hnot, rfl⟩
      refine ⟨_, hleads, ?_⟩
      simp only [hnot]
      rfl

theorem isDirectory_inside_iff : d.isDirectory (.inside names) = true ↔
    names = [] ∨ ∃ file ∈ d.files.map Prod.fst, names <+: file ∧ names.length < file.length := by
  rw [isDirectory, Bool.or_eq_true, List.isEmpty_iff, List.any_eq_true]
  simp only [Bool.and_eq_true, List.isPrefixOf_iff_prefix, decide_eq_true_eq, List.mem_map]
  refine or_congr_right ⟨?_, ?_⟩
  · rintro ⟨f, hf, h⟩
    exact ⟨f.1, ⟨f, hf, rfl⟩, h⟩
  · rintro ⟨_, ⟨f, hf, rfl⟩, h⟩
    exact ⟨f, hf, h⟩

theorem isDirectory_put_iff {front : List String} :
    (d.put names bytes).isDirectory (.inside front) = true ↔
      d.isDirectory (.inside front) = true ∨ front <+: names ∧ front.length < names.length := by
  simp only [isDirectory_inside_iff, put, Assoc.mem_keys_insert_iff]
  constructor
  · rintro (rfl | ⟨file, rfl | hfile, h⟩)
    · exact Or.inl (Or.inl rfl)
    · exact Or.inr h
    · exact Or.inl (Or.inr ⟨file, hfile, h⟩)
  · rintro ((rfl | ⟨file, hfile, h⟩) | h)
    · exact Or.inl rfl
    · exact Or.inr ⟨file, Or.inr hfile, h⟩
    · exact Or.inr ⟨names, Or.inl rfl, h⟩

theorem isDirectory_put {place : Place} (h : d.isDirectory place = true) :
    (d.put names bytes).isDirectory place = true := by
  cases place with
  | inside front => exact isDirectory_put_iff.mpr (Or.inl h)
  | above => rfl
  | beyond => cases h

theorem step_eq_ok_iff {place place' : Place} {name : String} : d.step place name = .ok place' ↔
    d.isDirectory place = true ∧ (if name = "." then Except.ok place
      else if name = ".." then .ok place.parent
      else if maxNameSize < name.utf8ByteSize then .error .longName
      else .ok (place.child name) : Except FileFault Place) = .ok place' := by
  rw [step]
  split
  · rename_i h
    rw [h]
    exact (and_iff_right rfl).symm
  · rename_i h
    exact iff_of_false (fun heq => nomatch heq) fun hboth => h hboth.1

theorem foldlM_step_put {place place' : Place} {steps : List String}
    (h : steps.foldlM d.step place = .ok place') :
    steps.foldlM (d.put names bytes).step place = .ok place' := by
  induction steps generalizing place with
  | nil => exact h
  | cons name rest ih =>
    rw [List.foldlM_cons, bind_eq_ok_iff] at h ⊢
    obtain ⟨next, hnext, h⟩ := h
    obtain ⟨hdirectory, hnext⟩ := step_eq_ok_iff.mp hnext
    exact ⟨next, step_eq_ok_iff.mpr ⟨isDirectory_put hdirectory, hnext⟩, ih h⟩

theorem follow_eq_ok_iff {steps : List String} {place : Place} : d.follow path steps = .ok place ↔
    (path.toList.contains '\x00' = false ∧ path ≠ "" ∧ path.utf8ByteSize ≤ maxPathSize) ∧
      steps.foldlM d.step (Place.start path) = .ok place := by
  rw [follow]
  split
  · rename_i hbad
    refine iff_of_false (fun h => nomatch h) fun h => ?_
    rw [hbad] at h
    cases h.1.1
  · rename_i hbad
    split
    · rename_i hempty
      exact iff_of_false (fun h => nomatch h) fun h => h.1.2.1 hempty
    · rename_i hempty
      split
      · rename_i hlong
        exact iff_of_false (fun h => nomatch h) fun h => absurd h.1.2.2 (Nat.not_le_of_lt hlong)
      · rename_i hlong
        exact (and_iff_right ⟨Bool.eq_false_iff.mpr hbad, hempty, Nat.le_of_not_lt hlong⟩).symm

theorem Leads.put {names' : List String} (h : d.Leads path names') :
    (d.put names bytes).Leads path names' := by
  obtain ⟨hpath, h⟩ := follow_eq_ok_iff.mp h
  exact follow_eq_ok_iff.mpr ⟨hpath, foldlM_step_put h⟩

def Reached (d : Directory) : Place → Prop
  | .inside names => ∀ front, front <+: names → front.length < names.length →
    d.isDirectory (.inside front) = true
  | _ => True

theorem reached_step {place place' : Place} {name : String} (h : d.Reached place)
    (hstep : d.step place name = .ok place') : d.Reached place' := by
  obtain ⟨hdirectory, hstep⟩ := step_eq_ok_iff.mp hstep
  split at hstep
  · cases hstep
    exact h
  · split at hstep
    · cases hstep
      cases place with
      | inside names =>
        rw [Place.parent]
        split
        · trivial
        · intro front hfront hlt
          have hdrop := List.dropLast_prefix names
          exact h front (hfront.trans hdrop) (hlt.trans_le hdrop.length_le)
      | above | beyond => trivial
    · split at hstep
      · cases hstep
      · cases hstep
        cases place with
        | inside names =>
          intro front hfront hlt
          rw [List.length_append, List.length_singleton, Nat.lt_succ_iff] at hlt
          rcases List.prefix_concat_iff.mp hfront with rfl | hfront
          · rw [List.length_append, List.length_singleton] at hlt
            omega
          · rcases hlt.lt_or_eq with hlt | heq
            · exact h front hfront hlt
            · rwa [hfront.eq_of_length heq]
        | above | beyond => trivial

theorem reached_foldlM {place place' : Place} {steps : List String} (h : d.Reached place)
    (hsteps : steps.foldlM d.step place = .ok place') : d.Reached place' := by
  induction steps generalizing place with
  | nil =>
    cases hsteps
    exact h
  | cons name rest ih =>
    rw [List.foldlM_cons, bind_eq_ok_iff] at hsteps
    obtain ⟨next, hnext, hsteps⟩ := hsteps
    exact ih (reached_step h hnext) hsteps

theorem Leads.reached (h : d.Leads path names) : d.Reached (.inside names) := by
  refine reached_foldlM ?_ (follow_eq_ok_iff.mp h).2
  rw [Place.start]
  split
  · trivial
  · exact fun front _ hlt => absurd hlt (Nat.not_lt_zero _)

theorem lookup_put_of_ne {other : List String} (h : other ≠ names) :
    (d.put names bytes).files.lookup other = d.files.lookup other :=
  Assoc.lookup_insert_of_ne h bytes d.files

theorem read_of_write (h : d.write path bytes = .ok d') : d'.read path = .ok bytes := by
  obtain ⟨-, names, hleads, -, rfl⟩ := write_eq_ok_iff.mp h
  exact read_eq_ok_iff.mpr ⟨names, hleads.put, Assoc.lookup_insert_self _ _ _⟩

theorem read_of_write_other {other : String} {held : List UInt8} (h : d.write path bytes = .ok d')
    (hother : ¬d.SameFile other path) (hread : d.read other = .ok held) : d'.read other = .ok held := by
  obtain ⟨-, names, hleads, -, rfl⟩ := write_eq_ok_iff.mp h
  obtain ⟨names', hleads', hfile⟩ := read_eq_ok_iff.mp hread
  have hne : names' ≠ names := by
    rintro rfl
    exact hother ⟨names', hleads', hleads⟩
  exact read_eq_ok_iff.mpr ⟨names', hleads'.put, (lookup_put_of_ne hne).trans hfile⟩

/-- A file that was written can be written again, also after another one has been. -/
theorem exists_write_again {d'' : Directory} {other : String} {held : List UInt8}
    (h : d.write path bytes = .ok d') (hother : d'.write other held = .ok d'') (again : List UInt8) :
    ∃ d₃, d''.write path again = .ok d₃ := by
  obtain ⟨hslash, names, hleads, hnot, rfl⟩ := write_eq_ok_iff.mp h
  obtain ⟨-, names', hleads', -, rfl⟩ := write_eq_ok_iff.mp hother
  refine ⟨_, write_eq_ok_iff.mpr ⟨hslash, names, hleads.put.put, ?_, rfl⟩⟩
  have hfirst : (d.put names bytes).isDirectory (.inside names) ≠ true := by
    rw [Ne, isDirectory_put_iff, hnot]
    rintro (hdirectory | ⟨-, hlt⟩)
    · cases hdirectory
    · exact absurd hlt (Nat.lt_irrefl _)
  rw [Bool.eq_false_iff, Ne, isDirectory_put_iff]
  rintro (hdirectory | ⟨hfront, hlt⟩)
  · exact hfirst hdirectory
  · -- The other file would stand in a directory where the first file stands.
    exact hfirst (hleads'.reached names hfront hlt)

end Directory

end WireSchema
