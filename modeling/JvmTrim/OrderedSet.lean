/-!
# Ordered sets

A finite set kept as a list in strictly ascending order of a key. Offsets, value origins and the
pending offsets of a traversal are all such sets; the order makes the representation canonical, so
that two sets with the same members are equal, and makes "the lowest pending offset" the head.

## Main definitions

* `OrderedSet key`: lists with strictly ascending keys
* `OrderedSet.insert`, `OrderedSet.union`, `OrderedSet.contains`

## Main results

* `OrderedSet.mem_insert`, `OrderedSet.mem_union`: members of the results, for an injective key
-/

namespace JvmTrim

variable {α : Type}

/-- Puts a value into a list with ascending keys, in front of the first larger key. A value whose
key is present already is dropped. -/
def insertOrdered (key : α → Nat) (value : α) : List α → List α
  | [] => [value]
  | head :: tail =>
    if key value < key head then value :: head :: tail
    else if key value = key head then head :: tail
    else head :: insertOrdered key value tail

theorem lt_of_mem_insertOrdered {key : α → Nat} {value : α} {bound : Nat} {elements : List α}
    (hv : bound < key value) (he : ∀ x ∈ elements, bound < key x) :
    ∀ x ∈ insertOrdered key value elements, bound < key x := by
  induction elements with
  | nil => simpa [insertOrdered] using hv
  | cons head tail ih =>
    intro x hx
    rw [insertOrdered] at hx
    split at hx
    · rcases List.mem_cons.mp hx with rfl | hx
      · exact hv
      · exact he x hx
    · split at hx
      · exact he x hx
      · rcases List.mem_cons.mp hx with rfl | hx
        · exact he x List.mem_cons_self
        · exact ih (fun y hy => he y (List.mem_cons_of_mem _ hy)) x hx

theorem pairwise_insertOrdered {key : α → Nat} (value : α) {elements : List α}
    (h : elements.Pairwise (fun a b => key a < key b)) :
    (insertOrdered key value elements).Pairwise (fun a b => key a < key b) := by
  induction elements with
  | nil => simp [insertOrdered]
  | cons head tail ih =>
    rw [List.pairwise_cons] at h
    rw [insertOrdered]
    split
    · rename_i hlt
      refine List.pairwise_cons.mpr ⟨fun x hx => ?_, List.pairwise_cons.mpr h⟩
      rcases List.mem_cons.mp hx with rfl | hx
      · exact hlt
      · exact Nat.lt_trans hlt (h.1 x hx)
    · split
      · exact List.pairwise_cons.mpr h
      · rename_i hge hne
        refine List.pairwise_cons.mpr ⟨?_, ih h.2⟩
        exact lt_of_mem_insertOrdered (by omega) h.1

/-- A finite set of values, listed in strictly ascending order of their keys. -/
structure OrderedSet (key : α → Nat) where
  /-- The members in ascending order. -/
  elements : List α
  /-- No two members share a key, and the keys ascend. -/
  ascending : elements.Pairwise (fun a b => key a < key b)

namespace OrderedSet

variable {key : α → Nat}

instance [DecidableEq α] : DecidableEq (OrderedSet key) := fun a b =>
  if h : a.elements = b.elements then
    .isTrue (by cases a; cases b; cases h; rfl)
  else .isFalse (fun e => h (e ▸ rfl))

instance [Repr α] : Repr (OrderedSet key) where
  reprPrec set prec := reprPrec set.elements prec

@[ext] theorem ext {a b : OrderedSet key} (h : a.elements = b.elements) : a = b := by
  cases a; cases b; cases h; rfl

/-- The set without members. -/
def empty : OrderedSet key := ⟨[], .nil⟩

instance : Inhabited (OrderedSet key) := ⟨empty⟩

/-- The set with one member. -/
def singleton (value : α) : OrderedSet key := ⟨[value], by simp⟩

/-- Adds a member. -/
def insert (set : OrderedSet key) (value : α) : OrderedSet key :=
  ⟨insertOrdered key value set.elements, pairwise_insertOrdered value set.ascending⟩

/-- Whether a value with the key of `value` is a member. -/
def contains (set : OrderedSet key) (value : α) : Bool :=
  set.elements.any (fun x => key x == key value)

/-- All members of both sets. -/
def union (a b : OrderedSet key) : OrderedSet key :=
  b.elements.foldl insert a

/-- Whether there are no members. -/
def isEmpty (set : OrderedSet key) : Bool := set.elements.isEmpty

/-- Number of members. -/
def size (set : OrderedSet key) : Nat := set.elements.length

/-- The lowest member and the set of the others. -/
def popFirst? (set : OrderedSet key) : Option (α × OrderedSet key) :=
  match set with
  | ⟨[], _⟩ => none
  | ⟨head :: tail, h⟩ => some (head, ⟨tail, (List.pairwise_cons.mp h).2⟩)

@[simp] theorem elements_empty : (empty : OrderedSet key).elements = [] := rfl

@[simp] theorem elements_singleton (value : α) :
    (singleton value : OrderedSet key).elements = [value] := rfl

theorem mem_insertOrdered {key : α → Nat} (hkey : ∀ a b, key a = key b → a = b) (value x : α)
    (elements : List α) :
    x ∈ insertOrdered key value elements ↔ x = value ∨ x ∈ elements := by
  induction elements with
  | nil => simp [insertOrdered]
  | cons head tail ih =>
    rw [insertOrdered]
    split
    · simp
    · split
      · rename_i h
        have := hkey _ _ h
        subst this
        simp
      · simp only [List.mem_cons, ih]
        constructor
        · rintro (h | h | h) <;> simp [h]
        · rintro (h | h | h) <;> simp [h]

/-- **Members after an insertion.** -/
theorem mem_insert (hkey : ∀ a b, key a = key b → a = b) (set : OrderedSet key) (value x : α) :
    x ∈ (set.insert value).elements ↔ x = value ∨ x ∈ set.elements :=
  mem_insertOrdered hkey value x set.elements

/-- **Members of a union.** -/
theorem mem_union (hkey : ∀ a b, key a = key b → a = b) (a b : OrderedSet key) (x : α) :
    x ∈ (a.union b).elements ↔ x ∈ a.elements ∨ x ∈ b.elements := by
  unfold union
  generalize b.elements = values
  induction values generalizing a with
  | nil => simp
  | cons head tail ih =>
    rw [List.foldl_cons, ih, mem_insert hkey, List.mem_cons]
    constructor
    · rintro ((h | h) | h) <;> simp [h]
    · rintro (h | h | h) <;> simp [h]

end OrderedSet

end JvmTrim
