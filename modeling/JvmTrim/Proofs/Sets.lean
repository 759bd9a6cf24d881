import JvmTrim.Origin
import JvmTrim.Proofs.FlagWords
import JvmTrim.Proofs.Outcome

/-!
# Members of sets

What insertion and union do to the members of an ordered set and of a set of indices. An ordered set
is asked by key, so these facts hold whether or not keys tell members apart.

## Main results

* `OrderedSet.contains_insert`, `OrderedSet.contains_union`
* `OrderedSet.union_eq_left_iff`: a union that changes nothing
* `IndexSet.insert_eq_ok`, `IndexSet.contains_insert`
-/

namespace JvmTrim

/-! ## Ordered sets -/

namespace OrderedSet

variable {α : Type} {key : α → Nat}

theorem contains_iff {set : OrderedSet key} {value : α} :
    set.contains value = true ↔ ∃ x ∈ set.elements, key x = key value := by
  simp [contains]

theorem contains_of_mem {set : OrderedSet key} {value : α} (h : value ∈ set.elements) :
    set.contains value = true :=
  contains_iff.mpr ⟨value, h, rfl⟩

theorem exists_key_insertOrdered {value : α} {elements : List α} {k : Nat} :
    (∃ x ∈ insertOrdered key value elements, key x = k) ↔
      key value = k ∨ ∃ x ∈ elements, key x = k := by
  induction elements with
  | nil => simp [insertOrdered]
  | cons head tail ih =>
    rw [insertOrdered]
    split
    · simp
    · split
      · rename_i heq
        simp [heq]
      · simp only [List.mem_cons, exists_eq_or_imp, ih]
        tauto

theorem contains_insert {set : OrderedSet key} {value x : α} :
    (set.insert value).contains x = true ↔ key value = key x ∨ set.contains x = true := by
  rw [contains_iff, contains_iff]
  exact exists_key_insertOrdered

theorem contains_union {a b : OrderedSet key} {x : α} :
    (a.union b).contains x = true ↔ a.contains x = true ∨ b.contains x = true := by
  rw [show b.contains x = true ↔ _ from contains_iff, union]
  generalize b.elements = values
  induction values generalizing a with
  | nil => simp
  | cons head tail ih =>
    rw [List.foldl_cons, ih, contains_insert]
    simp only [List.mem_cons, exists_eq_or_imp]
    tauto

theorem mem_of_mem_insertOrdered {value x : α} {elements : List α}
    (h : x ∈ insertOrdered key value elements) : x = value ∨ x ∈ elements := by
  induction elements with
  | nil => simpa [insertOrdered] using h
  | cons head tail ih =>
    rw [insertOrdered] at h
    split at h
    · simpa using h
    · split at h
      · exact .inr h
      · rcases List.mem_cons.mp h with rfl | h
        · exact .inr List.mem_cons_self
        · exact (ih h).imp_right (List.mem_cons_of_mem _)

/-- A member of a union is a member of one of the sets, whatever the keys. -/
theorem mem_or_mem_of_mem_union {a b : OrderedSet key} {x : α} (h : x ∈ (a.union b).elements) :
    x ∈ a.elements ∨ x ∈ b.elements := by
  unfold union at h
  generalize b.elements = values at h
  induction values generalizing a with
  | nil => exact .inl h
  | cons head tail ih =>
    rcases ih h with h | h
    · rcases mem_of_mem_insertOrdered h with rfl | h
      · exact .inr List.mem_cons_self
      · exact .inl h
    · exact .inr (List.mem_cons_of_mem _ h)

theorem elements_union_ne_nil {a b : OrderedSet key} (h : a.elements ≠ []) :
    (a.union b).elements ≠ [] := by
  obtain ⟨x, hx⟩ := List.exists_mem_of_ne_nil _ h
  obtain ⟨y, hy, -⟩ := contains_iff.mp (contains_union.mpr (.inl (contains_of_mem hx)) :
    (a.union b).contains x = true)
  exact List.ne_nil_of_mem hy

theorem insertOrdered_of_mem {value : α} {elements : List α}
    (hpair : elements.Pairwise (fun a b => key a < key b))
    (h : ∃ x ∈ elements, key x = key value) : insertOrdered key value elements = elements := by
  induction elements with
  | nil => simp at h
  | cons head tail ih =>
    rw [List.pairwise_cons] at hpair
    obtain ⟨x, hx, hk⟩ := h
    rw [insertOrdered]
    rcases List.mem_cons.mp hx with rfl | hx
    · rw [if_neg (by omega), if_pos hk.symm]
    · have hlt := hpair.1 x hx
      rw [if_neg (by omega), if_neg (by omega), ih hpair.2 ⟨x, hx, hk⟩]

theorem insert_of_contains {set : OrderedSet key} {value : α} (h : set.contains value = true) :
    set.insert value = set :=
  ext (insertOrdered_of_mem set.ascending (contains_iff.mp h))

/-- A union that changes nothing. -/
theorem union_eq_left_iff {a b : OrderedSet key} :
    a.union b = a ↔ ∀ x, b.contains x = true → a.contains x = true := by
  constructor
  · intro h x hx
    rw [← h]
    exact contains_union.mpr (.inr hx)
  · intro h
    have hall : ∀ x ∈ b.elements, a.contains x = true := fun x hx => h x (contains_of_mem hx)
    rw [union]
    revert hall
    generalize b.elements = values
    intro hall
    induction values with
    | nil => rfl
    | cons head tail ih =>
      rw [List.foldl_cons, insert_of_contains (hall head List.mem_cons_self)]
      exact ih fun x hx => hall x (List.mem_cons_of_mem _ hx)

theorem union_union_of_union_eq_left {a b : OrderedSet key} (h : a.union b = a)
    (c : OrderedSet key) : (a.union c).union b = a.union c := by
  rw [union_eq_left_iff] at h ⊢
  exact fun x hx => contains_union.mpr (.inl (h x hx))

theorem union_union_right (a b : OrderedSet key) : (a.union b).union b = a.union b :=
  union_eq_left_iff.mpr fun _ hx => contains_union.mpr (.inr hx)

theorem union_self (a : OrderedSet key) : a.union a = a :=
  union_eq_left_iff.mpr fun _ hx => hx

theorem elements_of_popFirst?_eq_none {set : OrderedSet key} (h : set.popFirst? = none) :
    set.elements = [] := by
  obtain ⟨elements, ascending⟩ := set
  cases elements with
  | nil => rfl
  | cons head tail => cases h

theorem elements_of_popFirst?_eq_some {set rest : OrderedSet key} {value : α}
    (h : set.popFirst? = some (value, rest)) : set.elements = value :: rest.elements := by
  obtain ⟨elements, ascending⟩ := set
  cases elements with
  | nil => cases h
  | cons head tail =>
    cases h
    rfl

end OrderedSet

/-! ## Sets of indices -/

namespace IndexSet

variable {set set' : IndexSet} {index : Nat} {new : Bool}

theorem lt_capacity_of_contains (h : set.contains index = true) : index < set.capacity := by
  rw [contains, Bool.and_eq_true, decide_eq_true_eq] at h
  exact h.1

theorem mem_toList : index ∈ set.toList ↔ set.contains index = true := by
  rw [contains_eq, isFlagged_eq, ← Array.getElem?_toList, toList, ← mem_indicesFrom 0, Nat.zero_add]

theorem anyIn_iff {start stop : Nat} : set.anyIn start stop = true ↔
    ∃ index, start ≤ index ∧ index < stop ∧ set.contains index = true := by
  have hwords := set.size_words
  simp only [anyIn, contains_eq]
  rw [anyFrom_iff (by omega) (by omega)]
  constructor
  · rintro ⟨index, hge, hlt, hcontains⟩
    exact ⟨index, hge, by omega, hcontains⟩
  · rintro ⟨index, hge, hlt, hcontains⟩
    have hcapacity : index < set.capacity :=
      lt_capacity_of_contains ((set.contains_eq index).trans hcontains)
    exact ⟨index, hge, by omega, hcontains⟩

theorem insert_eq_ok (h : set.insert index = .ok (new, set')) :
    index < set.capacity ∧ new = !set.contains index ∧ set'.capacity = set.capacity ∧
      ∀ i, set'.contains i = (decide (i = index) || set.contains i) := by
  rw [insert] at h
  split at h
  · rename_i hlt
    cases h
    refine ⟨hlt, by rw [contains_eq], rfl, fun i => ?_⟩
    rw [contains_eq, contains_eq]
    exact isFlagged_modify_or (set.word_lt_size hlt) i
  · cases h

theorem add_eq_ok (h : set.add index = .ok set') :
    index < set.capacity ∧ set'.capacity = set.capacity ∧
      ∀ i, set'.contains i = (decide (i = index) || set.contains i) := by
  obtain ⟨⟨new, _⟩, hi, rfl⟩ := Except.map_eq_ok.mp h
  obtain ⟨hlt, -, hc, hm⟩ := insert_eq_ok hi
  exact ⟨hlt, hc, hm⟩

end IndexSet

end JvmTrim
