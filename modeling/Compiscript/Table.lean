/-!
# Tables

Names with values, in the order in which the names first came in.

Writing to a name that is there already keeps its place; removing one and
writing it again moves it to the end. The order is part of every answer that
lists a table, so it is part of the type.
-/

namespace Compiscript

/-- Keys with values in order of their first insertion. -/
structure Table (κ : Type) (α : Type) where
  entries : List (κ × α)
deriving Repr, Inhabited

namespace Table

variable {κ α : Type} [DecidableEq κ]

def empty : Table κ α := ⟨[]⟩

/-- The keys in order. -/
def keys (t : Table κ α) : List κ := t.entries.map (·.1)

/-- The values in the order of their keys. -/
def values (t : Table κ α) : List α := t.entries.map (·.2)

/-- The value of a key. -/
def get? (t : Table κ α) (k : κ) : Option α := (t.entries.find? (·.1 = k)).map (·.2)

def contains (t : Table κ α) (k : κ) : Bool := t.entries.any (·.1 = k)

/-- Write a value: in place if the key is there, else at the end. -/
def set (t : Table κ α) (k : κ) (a : α) : Table κ α :=
  ⟨go t.entries⟩
where
  go : List (κ × α) → List (κ × α)
    | [] => [(k, a)]
    | (k', a') :: rest => if k' = k then (k, a) :: rest else (k', a') :: go rest

/-- Remove a key. -/
def erase (t : Table κ α) (k : κ) : Table κ α := ⟨t.entries.filter (·.1 ≠ k)⟩

/-- Change the value of a key, if it is there. -/
def modify (t : Table κ α) (k : κ) (f : α → α) : Table κ α :=
  match t.get? k with
  | some a => t.set k (f a)
  | none => t

private theorem go_nil (k : κ) (a : α) : set.go k a [] = [(k, a)] := rfl

private theorem go_cons (k : κ) (a : α) (e : κ × α) (rest : List (κ × α)) :
    set.go k a (e :: rest) = if e.1 = k then (k, a) :: rest else e :: set.go k a rest := rfl

private theorem find?_go_self (k : κ) (a : α) (es : List (κ × α)) :
    (set.go k a es).find? (·.1 = k) = some (k, a) := by
  induction es with
  | nil => simp [go_nil]
  | cons e rest ih =>
    rcases e with ⟨k', a'⟩
    by_cases h : k' = k
    · simp [go_cons, h]
    · simp [go_cons, h, ih]

private theorem find?_go_of_ne {k k' : κ} (h : k ≠ k') (a : α) (es : List (κ × α)) :
    (set.go k a es).find? (·.1 = k') = es.find? (·.1 = k') := by
  induction es with
  | nil => simp [go_nil, h]
  | cons e rest ih =>
    rcases e with ⟨j, b⟩
    by_cases hj : j = k
    · subst hj
      simp [go_cons, h]
    · by_cases hj' : j = k'
      · rw [go_cons, if_neg hj]
        simp [hj']
      · simp [go_cons, hj, hj', ih]

@[simp] theorem get?_set_self (t : Table κ α) (k : κ) (a : α) : (t.set k a).get? k = some a := by
  simp [get?, set, find?_go_self]

theorem get?_set_of_ne (t : Table κ α) {k k' : κ} (h : k ≠ k') (a : α) :
    (t.set k a).get? k' = t.get? k' := by
  simp [get?, set, find?_go_of_ne h]

theorem keys_set_of_mem (t : Table κ α) {k : κ} (h : k ∈ t.keys) (a : α) :
    (t.set k a).keys = t.keys := by
  rcases t with ⟨es⟩
  simp only [keys, set] at *
  induction es with
  | nil => simp at h
  | cons e rest ih =>
    rcases e with ⟨k', a'⟩
    by_cases hk : k' = k
    · simp [go_cons, hk]
    · have hmem : k ∈ rest.map (·.1) := by
        simp only [List.map_cons, List.mem_cons] at h
        rcases h with h | h
        · exact absurd h.symm hk
        · exact h
      simp [go_cons, hk, ih hmem]

theorem entries_set_of_not_mem (t : Table κ α) {k : κ} (h : k ∉ t.keys) (a : α) :
    (t.set k a).entries = t.entries ++ [(k, a)] := by
  rcases t with ⟨es⟩
  simp only [keys, set] at *
  induction es with
  | nil => simp [go_nil]
  | cons e rest ih =>
    simp only [List.map_cons, List.mem_cons, not_or] at h
    simp [go_cons, Ne.symm h.1, ih h.2]

theorem keys_set_of_not_mem (t : Table κ α) {k : κ} (h : k ∉ t.keys) (a : α) :
    (t.set k a).keys = t.keys ++ [k] := by
  simp [keys, entries_set_of_not_mem t h]

end Table

end Compiscript
