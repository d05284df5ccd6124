import WireSchema.Proofs.Streams
import WireSchema.Schema.Error

/-! A walk lists what is met in a tree, each with its place. Places are told from the inside out; a
program that walks may keep the names on a stack instead, and `Keeps` and `Returns` say that the two
report the same. -/

namespace WireSchema

section

variable {ε α β : Type}

def failure? : Except ε α → Option ε
  | .ok _ => none
  | .error e => some e

@[simp] theorem failure?_ok (a : α) : failure? (.ok a : Except ε α) = none := rfl

@[simp] theorem failure?_error (e : ε) : failure? (.error e : Except ε α) = some e := rfl

theorem failure?_eq_some_iff {r : Except ε α} {e : ε} : failure? r = some e ↔ r = .error e := by
  cases r <;> simp

theorem failure?_eq_none_iff {r : Except ε Unit} : failure? r = none ↔ r = .ok () := by
  cases r <;> simp

@[simp] theorem failure?_map (f : α → β) (r : Except ε α) : failure? (f <$> r) = failure? r := by
  cases r <;> rfl

theorem failure?_bind {r : Except ε α} {k : α → Except ε β} {e? : Option ε}
    (h : ∀ a, failure? (k a) = e?) : failure? (r >>= k) = (failure? r).or e? := by
  cases r with
  | ok a => exact h a
  | error e => rfl

theorem failure?_cons (f : α → β) (r : Except ε α) (rest : Except ε (List β)) :
    failure? (r >>= fun a => rest >>= fun bs => pure (f a :: bs)) = (failure? r).or (failure? rest) := by
  apply failure?_bind
  intro a
  rw [← map_eq_pure_bind, failure?_map]

end

/-- What is met, each with its place. -/
abbrev Walk (σ : Type) := List (SchemaPath × σ)

namespace Walk

variable {σ φ : Type}

def inside (name : String) (walk : Walk σ) : Walk σ := walk.map fun stop => (name :: stop.1, stop.2)

section

variable (fault? : σ → Option φ) (error : φ → SchemaPath → SchemaError) (path : SchemaPath)

/-- The error for the first fault of a walk that starts at `path`. -/
def report? (walk : Walk σ) : Option SchemaError :=
  walk.findSome? fun stop => (fault? stop.2).map fun fault => error fault (path ++ stop.1)

@[simp] theorem report?_nil : report? fault? error path [] = none := rfl

@[simp] theorem report?_cons (place : SchemaPath) (stop : σ) (rest : Walk σ) :
    report? fault? error path ((place, stop) :: rest) =
      ((fault? stop).map fun fault => error fault (path ++ place)).or
        (report? fault? error path rest) := by
  rw [report?, List.findSome?_cons]
  cases fault? stop <;> rfl

@[simp] theorem report?_append (front rest : Walk σ) :
    report? fault? error path (front ++ rest) =
      (report? fault? error path front).or (report? fault? error path rest) :=
  List.findSome?_append

@[simp] theorem report?_inside (name : String) (walk : Walk σ) :
    report? fault? error path (walk.inside name) = report? fault? error (path ++ [name]) walk := by
  simp only [report?, inside, List.findSome?_map, Function.comp_def, List.append_assoc,
    List.singleton_append]

end

theorem report?_eq_none_iff {fault? : σ → Option φ} {error : φ → SchemaPath → SchemaError}
    {path : SchemaPath} {walk : Walk σ} :
    report? fault? error path walk = none ↔ ∀ stop ∈ walk, fault? stop.2 = none := by
  simp [report?]

/-- What is reported is the fault of a stop that nothing at fault stands in front of. -/
theorem report?_eq_some_iff {fault? : σ → Option φ} {error : φ → SchemaPath → SchemaError}
    {path : SchemaPath} {walk : Walk σ} {e : SchemaError} :
    report? fault? error path walk = some e ↔ ∃ before place stop after fault,
      walk = before ++ (place, stop) :: after ∧ (∀ b ∈ before, fault? b.2 = none) ∧
      fault? stop = some fault ∧ e = error fault (path ++ place) := by
  rw [report?, List.findSome?_eq_some_iff]
  simp only [Option.map_eq_some_iff, Option.map_eq_none_iff]
  constructor
  · rintro ⟨before, ⟨place, stop⟩, after, rfl, ⟨fault, hfault, rfl⟩, hbefore⟩
    exact ⟨before, place, stop, after, fault, rfl, hbefore, hfault, rfl⟩
  · rintro ⟨before, place, stop, after, fault, rfl, hbefore, hfault, rfl⟩
    exact ⟨before, (place, stop), after, rfl, ⟨fault, hfault, rfl⟩, hbefore⟩

end Walk

/-- A computation that has the names on the way to where it is on a stack. -/
abbrev OnWay (α : Type) := ExceptT SchemaError (StateM SchemaPath) α

namespace OnWay

variable {α β : Type}

def here (result : SchemaPath → Except SchemaError α) : OnWay α := ExceptT.mk do
  return result (← get)

def nested (name : String) (m : OnWay α) : OnWay α := ExceptT.mk do
  modify (· ++ [name])
  let result ← m.run
  modify List.dropLast
  return result

def into (name : String) (m : OnWay α) : OnWay α := do
  modify (· ++ [name])
  let a ← m
  modify List.dropLast
  return a

/-- Every call gives the result for the place and leaves the stack as it was. -/
def Keeps (m : OnWay α) (result : SchemaPath → Except SchemaError α) : Prop :=
  ∀ path, m.run.run path = (result path, path)

def Returns (m : OnWay α) (result : SchemaPath → Except SchemaError α) : Prop :=
  ∀ path, ∃ path', m.run.run path = (result path, path') ∧ ∀ a, result path = .ok a → path' = path

theorem keeps_here (result : SchemaPath → Except SchemaError α) : Keeps (here result) result :=
  fun _ => rfl

theorem keeps_pure (a : α) : Keeps (pure a) fun _ => pure a := fun _ => rfl

variable {m : OnWay α} {k : α → OnWay β} {r : SchemaPath → Except SchemaError α}
  {s : α → SchemaPath → Except SchemaError β}

theorem Keeps.bind (hm : Keeps m r) (hk : ∀ a, Keeps (k a) (s a)) :
    Keeps (m >>= k) fun path => r path >>= fun a => s a path := by
  intro path
  change _ = (r path >>= fun a => s a path, path)
  rw [run_bind, hm path]
  cases r path with
  | ok a => exact hk a path
  | error e => rfl

theorem Keeps.map (hm : Keeps m r) (f : α → β) : Keeps (f <$> m) fun path => f <$> r path := by
  simp only [map_eq_pure_bind]
  exact hm.bind fun a => keeps_pure (f a)

theorem Keeps.nested (hm : Keeps m r) (name : String) :
    Keeps (nested name m) fun path => r (path ++ [name]) := by
  intro path
  have hstep : (OnWay.nested name m).run.run path =
      ((m.run.run (path ++ [name])).1, (m.run.run (path ++ [name])).2.dropLast) := rfl
  rw [hstep, hm, List.dropLast_concat]

theorem Keeps.returns (hm : Keeps m r) : Returns m r := fun path => ⟨path, hm path, fun _ _ => rfl⟩

theorem Returns.bind (hm : Returns m r) (hk : ∀ a, Returns (k a) (s a)) :
    Returns (m >>= k) fun path => r path >>= fun a => s a path := by
  intro path
  obtain ⟨path', hrun, hback⟩ := hm path
  simp only [run_bind, hrun]
  cases hr : r path with
  | ok a =>
    rw [hback a hr]
    exact hk a path
  | error e => exact ⟨path', rfl, fun _ h => nomatch h⟩

theorem returns_ite {c : Prop} [Decidable c] {m' : OnWay α} {r' : SchemaPath → Except SchemaError α}
    (hm : Returns m r) (hm' : Returns m' r') :
    Returns (if c then m else m') fun path => if c then r path else r' path := by
  by_cases h : c
  · simpa only [if_pos h] using hm
  · simpa only [if_neg h] using hm'

theorem Returns.into (hm : Returns m r) (name : String) :
    Returns (into name m) fun path => r (path ++ [name]) := by
  intro path
  obtain ⟨path', hrun, hback⟩ := hm (path ++ [name])
  have hpush : (modify (· ++ [name]) : OnWay PUnit).run.run path = (.ok ⟨⟩, path ++ [name]) := rfl
  simp only [OnWay.into, run_bind, hpush, hrun]
  cases hr : r (path ++ [name]) with
  | ok a =>
    rw [hback a hr]
    exact ⟨path, Prod.ext rfl List.dropLast_concat, fun _ _ => rfl⟩
  | error e => exact ⟨path', rfl, fun _ h => nomatch h⟩

end OnWay

end WireSchema
