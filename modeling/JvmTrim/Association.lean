/-!
# Association lists

Small tables are lists of keys with their values, looked up by `List.lookup`. Assigning a value to a
key keeps the place of the key.
-/

namespace JvmTrim

/-- The entry for a key replaced, or added if there is none. -/
def assign {α β : Type} [BEq α] (key : α) (value : β) : List (α × β) → List (α × β)
  | [] => [(key, value)]
  | (k, v) :: rest => if k == key then (key, value) :: rest else (k, v) :: assign key value rest

/-- **Looking up after an assignment.** -/
theorem lookup_assign {α β : Type} [BEq α] [LawfulBEq α] (key other : α) (value : β)
    (entries : List (α × β)) :
    (assign key value entries).lookup other =
      if other == key then some value else entries.lookup other := by
  induction entries with
  | nil =>
    simp only [assign, List.lookup_cons, List.lookup_nil]
    split <;> simp_all
  | cons head tail ih =>
    obtain ⟨k, v⟩ := head
    simp only [assign]
    split
    · rename_i h
      have h := eq_of_beq h
      subst h
      simp only [List.lookup_cons]
      split <;> simp_all
    · rename_i h
      simp only [List.lookup_cons, ih]
      split
      · rename_i h'
        have h' := eq_of_beq h'
        subst h'
        simp [h]
      · rfl

/-- **Looking up without a key.** -/
theorem lookup_filter_ne {α β : Type} [BEq α] [LawfulBEq α] (key other : α)
    (entries : List (α × β)) : (entries.filter (·.1 != key)).lookup other =
      if other == key then none else entries.lookup other := by
  induction entries with
  | nil => simp
  | cons head tail ih =>
    obtain ⟨k, v⟩ := head
    by_cases hkey : k = key
    · subst hkey
      rw [List.filter_cons_of_neg (by simp), ih, List.lookup_cons]
      cases other == k <;> rfl
    · rw [List.filter_cons_of_pos (by simpa using hkey), List.lookup_cons, List.lookup_cons, ih]
      split <;> simp_all

/-- **Looking up a changed value.** -/
theorem lookup_map_value {α β γ : Type} [BEq α] (change : β → γ) (key : α)
    (entries : List (α × β)) :
    (entries.map fun (k, v) => (k, change v)).lookup key = (entries.lookup key).map change := by
  induction entries with
  | nil => rfl
  | cons head tail ih =>
    obtain ⟨k, v⟩ := head
    rw [List.map_cons, List.lookup_cons, List.lookup_cons, ih]
    split <;> rfl

end JvmTrim
