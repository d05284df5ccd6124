/-! Lists of pairs that remember the order in which keys first arrived. A later binding wins without
moving anything. -/

namespace WireSchema.Assoc

variable {α β : Type} [BEq α]

/-- Binds a key: in place if it is bound already, at the end otherwise. -/
def insert (k : α) (v : β) : List (α × β) → List (α × β)
  | [] => [(k, v)]
  | (k', v') :: rest => if k == k' then (k', v) :: rest else (k', v') :: insert k v rest

def ofList (bindings : List (α × β)) : List (α × β) :=
  bindings.foldl (fun table b => insert b.1 b.2 table) []

def contains (k : α) (table : List (α × β)) : Bool :=
  (table.lookup k).isSome

theorem lookup_insert_self [LawfulBEq α] (k : α) (v : β) (table : List (α × β)) :
    (insert k v table).lookup k = some v := by
  induction table with
  | nil => simp [insert]
  | cons b rest ih =>
    obtain ⟨k', v'⟩ := b
    by_cases h : k == k' <;> simp [insert, h, List.lookup_cons, ih]

theorem lookup_insert_of_ne [LawfulBEq α] {k k' : α} (h : k' ≠ k) (v : β) (table : List (α × β)) :
    (insert k v table).lookup k' = table.lookup k' := by
  have hne : (k' == k) = false := beq_false_of_ne h
  induction table with
  | nil => simp [insert, List.lookup_cons, hne]
  | cons b rest ih =>
    obtain ⟨k₁, v₁⟩ := b
    by_cases h₁ : k == k₁
    · have : k = k₁ := eq_of_beq h₁
      subst this
      simp [insert, List.lookup_cons, hne]
    · simp [insert, h₁, List.lookup_cons, ih]

end WireSchema.Assoc
