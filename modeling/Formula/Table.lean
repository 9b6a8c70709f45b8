/-!
# Tables

A table binds keys to values, in the order in which the keys were first bound.
-/

set_option autoImplicit false

namespace Formula

/-- Keys with their values. `Table.insert` keeps at most one entry a key. -/
structure Table (α β : Type) where
  entries : List (α × β) := []
  deriving Repr, Inhabited

namespace Table

variable {α β : Type} [DecidableEq α]

/-- The value of the first entry with the key. -/
def lookup (key : α) : List (α × β) → Option β
  | [] => none
  | (k, v) :: rest => if k = key then some v else lookup key rest

/-- Replaces the value of the first entry with the key, or adds an entry at the end. -/
def put (key : α) (value : β) : List (α × β) → List (α × β)
  | [] => [(key, value)]
  | (k, v) :: rest => if k = key then (key, value) :: rest else (k, v) :: put key value rest

/-- The value bound to a key. -/
def get? (t : Table α β) (key : α) : Option β :=
  lookup key t.entries

/-- Whether a key is bound. -/
def contains (t : Table α β) (key : α) : Bool :=
  (t.get? key).isSome

/-- Binds a key, replacing its earlier value. -/
def insert (t : Table α β) (key : α) (value : β) : Table α β :=
  ⟨put key value t.entries⟩

/-- Removes a key. -/
def erase (t : Table α β) (key : α) : Table α β :=
  ⟨t.entries.filter fun (k, _) => k ≠ key⟩

/-- The bound keys. -/
def keys (t : Table α β) : List α :=
  t.entries.map (·.1)

/-! ## What a look-up sees of each operation -/

theorem lookup_put_self (key : α) (value : β) (entries : List (α × β)) :
    lookup key (put key value entries) = some value := by
  induction entries with
  | nil => simp [put, lookup]
  | cons e rest ih =>
    obtain ⟨k, v⟩ := e
    by_cases h : k = key <;> simp [put, lookup, h, ih]

theorem lookup_put_of_ne {key other : α} (value : β) (entries : List (α × β)) (h : other ≠ key) :
    lookup other (put key value entries) = lookup other entries := by
  induction entries with
  | nil => simp [put, lookup, Ne.symm h]
  | cons e rest ih =>
    obtain ⟨k, v⟩ := e
    by_cases hk : k = key
    · subst hk; simp [put, lookup, Ne.symm h]
    · by_cases ho : k = other
      · subst ho; simp [put, lookup, hk]
      · simp [put, lookup, hk, ho, ih]

/-- What is found stands in the table. -/
theorem mem_of_lookup {key : α} {value : β} {entries : List (α × β)}
    (h : lookup key entries = some value) : (key, value) ∈ entries := by
  induction entries with
  | nil => cases h
  | cons e rest ih =>
    obtain ⟨k, v⟩ := e
    rw [lookup] at h
    split at h
    · next hk =>
      subst hk
      cases h
      exact List.mem_cons_self
    · exact List.mem_cons_of_mem _ (ih h)

/-- A key that was just bound has its new value. -/
@[simp] theorem get?_insert_self (t : Table α β) (key : α) (value : β) :
    (t.insert key value).get? key = some value :=
  lookup_put_self key value t.entries

/-- Binding a key changes no other key. -/
theorem get?_insert_of_ne (t : Table α β) {key other : α} (value : β) (h : other ≠ key) :
    (t.insert key value).get? other = t.get? other :=
  lookup_put_of_ne value t.entries h

/-- What a key has after one was bound is the new value, or it was there before. -/
theorem get?_insert_eq_some {t : Table α β} {key other : α} {value found : β}
    (h : (t.insert key value).get? other = some found) :
    other = key ∧ found = value ∨ t.get? other = some found := by
  by_cases hkey : other = key
  · subst hkey
    rw [get?_insert_self, Option.some.injEq] at h
    exact .inl ⟨rfl, h.symm⟩
  · rw [get?_insert_of_ne _ _ hkey] at h
    exact .inr h

end Table

end Formula
