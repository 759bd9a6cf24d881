import JvmTrim.Proofs.Sets
import Mathlib.Data.Finset.Card

/-!
# Sets of indices are finite sets

A set of indices is a row of words and a capacity. What its operations do is told here in terms of
the finite set that it stands for: whatever calls have led to it, every answer that it gives is the
one that the finite set gives, also for ranges and capacities that end inside a word. The flags of
the last word that belong to no index are the reason why this needs care. They are never set, so
counting flags, comparing words and looking for a word that is not zero are about members only.

## Main definitions

* `IndexSet.Represents`: standing for a finite set
* `IndexSet.Calls`: the calls that lead to a set of indices, with the finite set they mean

## Main results

* `IndexSet.Calls.represents_of_run`: calls lead to a set of indices that stands for what they mean
* `IndexSet.Calls.exists_run_iff`: calls fail only for an index or a capacity that does not fit
* `IndexSet.Calls.refines_finset`: all answers agree with the finite set
-/

namespace JvmTrim

namespace IndexSet

/-! ## What the operations do -/

variable {a b set set' : IndexSet} {index : Nat}

theorem remove_eq_ok (h : set.remove index = .ok set') :
    index < set.capacity ∧ set'.capacity = set.capacity ∧
      ∀ i, set'.contains i = (decide (i ≠ index) && set.contains i) := by
  rw [remove] at h
  split at h
  · rename_i hlt
    cases h
    refine ⟨hlt, rfl, fun i => ?_⟩
    rw [contains_eq, contains_eq]
    exact isFlagged_modify_and_not set.words index i
  · cases h

theorem exists_insert_iff : (∃ result, set.insert index = .ok result) ↔ index < set.capacity := by
  unfold insert
  split <;> simp_all

theorem exists_remove_iff : (∃ result, set.remove index = .ok result) ↔ index < set.capacity := by
  unfold remove
  split <;> simp_all

theorem exists_union_iff : (∃ result, a.union b = .ok result) ↔ a.capacity = b.capacity := by
  unfold union
  split <;> simp_all

theorem size_words_eq (h : a.capacity = b.capacity) : a.words.size = b.words.size := by
  rw [a.size_words, b.size_words, h]

theorem contains_merged (h : a.capacity = b.capacity) (index : Nat) :
    (a.merged b h).contains index = (a.contains index || b.contains index) := by
  simp only [contains_eq]
  exact isFlagged_zipWith_or (size_words_eq h) index

theorem getLsbD_getElem (set : IndexSet) {slot position : Nat} (hslot : slot < set.words.size)
    (hposition : position < 64) :
    set.words[slot].toBitVec.getLsbD position = set.contains (64 * slot + position) := by
  have hword : (64 * slot + position) / 64 = slot := by omega
  have hplace : (64 * slot + position) % 64 = position := by omega
  rw [contains_eq, isFlagged_eq, hword, hplace, Array.getElem?_eq_getElem hslot, Option.getD_some]

theorem exists_slot (h : set.contains index = true) : ∃ slot position,
    slot < set.words.size ∧ position < 64 ∧ index = 64 * slot + position :=
  ⟨index / 64, index % 64, set.word_lt_size (lt_capacity_of_contains h),
    Nat.mod_lt index (by decide), (Nat.div_add_mod index 64).symm⟩

theorem or_bne_iff {word other : UInt64} : (word ||| other != word) = true ↔
    ∃ position < 64, other.toBitVec.getLsbD position = true ∧
      word.toBitVec.getLsbD position = false := by
  rw [bne_iff_ne]
  constructor
  · intro hne
    by_contra hnone
    refine hne (UInt64.toBitVec_inj.mp (BitVec.eq_of_getLsbD_eq fun position hlt => ?_))
    rw [UInt64.toBitVec_or, BitVec.getLsbD_or]
    cases hword : word.toBitVec.getLsbD position with
    | true => rfl
    | false =>
      rw [Bool.false_or, Bool.eq_false_iff]
      exact fun hother => hnone ⟨position, hlt, hother, hword⟩
  · rintro ⟨position, -, hother, hword⟩ heq
    have hbit : (word ||| other).toBitVec.getLsbD position = true := by
      rw [UInt64.toBitVec_or, BitVec.getLsbD_or, hother, Bool.or_true]
    rw [heq, hword] at hbit
    cases hbit

/-- Some word changes in a union exactly if there is a new member. -/
theorem any_zip_iff (h : a.capacity = b.capacity) :
    ((a.words.zip b.words).any fun (word, other) => word ||| other != word) = true ↔
      ∃ index, b.contains index = true ∧ a.contains index = false := by
  have hsize := size_words_eq h
  rw [Array.any_eq_true]
  constructor
  · rintro ⟨slot, hslot, hchanges⟩
    rw [Array.size_zip] at hslot
    rw [Array.getElem_zip] at hchanges
    obtain ⟨position, hlt, hother, hword⟩ := or_bne_iff.mp hchanges
    rw [getLsbD_getElem b (by omega) hlt] at hother
    rw [getLsbD_getElem a (by omega) hlt] at hword
    exact ⟨_, hother, hword⟩
  · rintro ⟨index, hother, hword⟩
    obtain ⟨slot, position, hslot, hlt, rfl⟩ := exists_slot hother
    refine ⟨slot, by rw [Array.size_zip]; omega, ?_⟩
    rw [Array.getElem_zip]
    refine or_bne_iff.mpr ⟨position, hlt, ?_, ?_⟩
    · rw [getLsbD_getElem b hslot hlt, hother]
    · rw [getLsbD_getElem a (by omega) hlt, hword]

theorem union_eq_ok {changed : Bool} (h : a.union b = .ok (changed, set)) :
    a.capacity = b.capacity ∧ set.capacity = a.capacity ∧
      (changed = true ↔ ∃ index, b.contains index = true ∧ a.contains index = false) ∧
      ∀ i, set.contains i = (a.contains i || b.contains i) := by
  rw [union] at h
  split at h
  · rename_i hcapacity
    cases h
    exact ⟨hcapacity, rfl, any_zip_iff hcapacity, contains_merged hcapacity⟩
  · cases h

theorem isEmpty_iff : set.isEmpty = true ↔ ∀ index, set.contains index = false := by
  rw [isEmpty, Array.all_eq_true]
  constructor
  · intro hall index
    rw [Bool.eq_false_iff]
    intro hcontains
    obtain ⟨slot, position, hslot, hlt, rfl⟩ := exists_slot hcontains
    have hbit := getLsbD_getElem set hslot hlt
    rw [eq_of_beq (hall slot hslot), hcontains] at hbit
    cases BitVec.getLsbD_zero.symm.trans hbit
  · intro hnone slot hslot
    by_contra hne
    obtain ⟨position, hlt, hbit⟩ := bne_zero_iff.mp (bne_iff_ne.mpr fun h => hne (beq_iff_eq.mpr h))
    rw [getLsbD_getElem set hslot hlt, hnone] at hbit
    cases hbit

theorem length_toList (set : IndexSet) : set.toList.length = set.count :=
  length_indicesFrom 0 set.words.toList

/-- Sets with the same capacity and the same members are equal. -/
theorem eq_of_contains (hcapacity : a.capacity = b.capacity)
    (h : ∀ index, a.contains index = b.contains index) : a = b := by
  have hwords : a.words = b.words := by
    refine Array.ext (size_words_eq hcapacity) fun slot ha hb => ?_
    refine UInt64.toBitVec_inj.mp (BitVec.eq_of_getLsbD_eq fun position hlt => ?_)
    rw [getLsbD_getElem a ha hlt, getLsbD_getElem b hb hlt, h]
  cases a
  cases b
  cases hcapacity
  cases hwords
  rfl

/-! ## Standing for a finite set -/

/-- Whether a set of indices stands for a finite set of numbers below a capacity. -/
structure Represents (set : IndexSet) (capacity : Nat) (members : Finset Nat) : Prop where
  capacity_eq : set.capacity = capacity
  contains_iff : ∀ index, set.contains index = true ↔ index ∈ members

section

variable {capacity : Nat} {members others : Finset Nat}

theorem represents_ofCapacity (capacity : Nat) : (ofCapacity capacity).Represents capacity ∅ where
  capacity_eq := rfl
  contains_iff index := by simp

namespace Represents

theorem insert {new : Bool} (hset : set.Represents capacity members)
    (h : set.insert index = .ok (new, set')) :
    set'.Represents capacity (Insert.insert index members) := by
  obtain ⟨-, -, hcapacity, hcontains⟩ := insert_eq_ok h
  refine ⟨hcapacity.trans hset.capacity_eq, fun other => ?_⟩
  rw [hcontains, Bool.or_eq_true, decide_eq_true_eq, hset.contains_iff, Finset.mem_insert]

theorem remove (hset : set.Represents capacity members) (h : set.remove index = .ok set') :
    set'.Represents capacity (members.erase index) := by
  obtain ⟨-, hcapacity, hcontains⟩ := remove_eq_ok h
  refine ⟨hcapacity.trans hset.capacity_eq, fun other => ?_⟩
  rw [hcontains, Bool.and_eq_true, decide_eq_true_eq, hset.contains_iff, Finset.mem_erase]

theorem union {capacity' : Nat} {changed : Bool} (ha : a.Represents capacity members)
    (hb : b.Represents capacity' others) (h : a.union b = .ok (changed, set)) :
    set.Represents capacity (members ∪ others) := by
  obtain ⟨-, hcapacity, -, hcontains⟩ := union_eq_ok h
  refine ⟨hcapacity.trans ha.capacity_eq, fun index => ?_⟩
  rw [hcontains, Bool.or_eq_true, ha.contains_iff, hb.contains_iff, Finset.mem_union]

variable (hset : set.Represents capacity members)
include hset

theorem mem_toList : index ∈ set.toList ↔ index ∈ members := by
  rw [IndexSet.mem_toList, hset.contains_iff]

theorem count_eq : set.count = members.card := by
  have hnodup : set.toList.Nodup := (pairwise_indicesFrom 0 _).imp fun h => Nat.ne_of_lt h
  have hmembers : set.toList.toFinset = members := by
    ext index
    rw [List.mem_toFinset, hset.mem_toList]
  rw [← length_toList, ← hmembers, List.toFinset_card_of_nodup hnodup]

theorem isEmpty_iff : set.isEmpty = true ↔ members = ∅ := by
  simp only [IndexSet.isEmpty_iff, Finset.eq_empty_iff_forall_notMem, ← hset.contains_iff,
    Bool.not_eq_true]

theorem anyIn_iff {start stop : Nat} : set.anyIn start stop = true ↔
    ∃ member ∈ members, start ≤ member ∧ member < stop := by
  simp only [IndexSet.anyIn_iff, hset.contains_iff]
  constructor
  · rintro ⟨index, hge, hlt, hmem⟩
    exact ⟨index, hmem, hge, hlt⟩
  · rintro ⟨index, hmem, hge, hlt⟩
    exact ⟨index, hge, hlt, hmem⟩

theorem new_iff {new : Bool} (h : set.insert index = .ok (new, set')) :
    new = true ↔ Insert.insert index members ≠ members := by
  obtain ⟨-, rfl, -, -⟩ := insert_eq_ok h
  rw [Bool.not_eq_true', ← Bool.not_eq_true, hset.contains_iff, Ne, Finset.insert_eq_self]

theorem beq_iff (hb : b.Represents capacity others) : (set == b) = true ↔ members = others := by
  rw [beq_iff_eq]
  constructor
  · rintro rfl
    ext index
    rw [← hset.contains_iff, hb.contains_iff]
  · rintro rfl
    refine eq_of_contains (hset.capacity_eq.trans hb.capacity_eq.symm) fun index => ?_
    rw [Bool.eq_iff_iff, hset.contains_iff, hb.contains_iff]

theorem changed_iff {capacity' : Nat} {changed : Bool} (hb : b.Represents capacity' others)
    (h : set.union b = .ok (changed, set')) : changed = true ↔ members ∪ others ≠ members := by
  obtain ⟨-, -, hchanged, -⟩ := union_eq_ok h
  rw [hchanged, Ne, Finset.union_eq_left, Finset.not_subset]
  simp only [← Bool.not_eq_true, hset.contains_iff, hb.contains_iff]

end Represents

end

/-! ## Calls -/

/-- The calls that lead to a set of indices: it is new, or comes from one or two sets that calls
have led to. -/
inductive Calls
  | new (capacity : Nat)
  | insert (calls : Calls) (index : Nat)
  | remove (calls : Calls) (index : Nat)
  | reset (calls : Calls) (capacity : Nat)
  | union (calls other : Calls)
  | join (calls other : Calls)
  deriving DecidableEq, Repr

namespace Calls

/-- The set of indices that calls lead to. -/
def run : Calls → Except Failure IndexSet
  | new capacity => .ok (.ofCapacity capacity)
  | insert calls index => do return (← (← calls.run).insert index).2
  | remove calls index => do (← calls.run).remove index
  | reset calls capacity => do return (← calls.run).reset capacity
  | union calls other => do return (← (← calls.run).union (← other.run)).2
  | join calls other => do (← calls.run).join (← other.run)

/-- The capacity after calls. -/
def capacity : Calls → Nat
  | new capacity => capacity
  | insert calls _ => calls.capacity
  | remove calls _ => calls.capacity
  | reset _ capacity => capacity
  | union calls _ => calls.capacity
  | join calls _ => calls.capacity

/-- The finite set that calls mean. -/
def members : Calls → Finset Nat
  | new _ => ∅
  | insert calls index => Insert.insert index calls.members
  | remove calls index => calls.members.erase index
  | reset _ _ => ∅
  | union calls other => calls.members ∪ other.members
  | join calls other => calls.members ∪ other.members

/-- Whether indices are below the capacity when they are added or removed, and the capacities of
sets agree when they are united. -/
def Permitted : Calls → Prop
  | new _ => True
  | insert calls index => calls.Permitted ∧ index < calls.capacity
  | remove calls index => calls.Permitted ∧ index < calls.capacity
  | reset calls _ => calls.Permitted
  | union calls other => calls.Permitted ∧ other.Permitted ∧ calls.capacity = other.capacity
  | join calls other => calls.Permitted ∧ other.Permitted ∧ calls.capacity = other.capacity

theorem run_join (calls other : Calls) : (join calls other).run = (union calls other).run := by
  simp only [run, IndexSet.join, bind_pure_comp]

theorem represents_of_run_union {calls other : Calls} {set : IndexSet}
    (hcalls : ∀ {before}, calls.run = .ok before →
      before.Represents calls.capacity calls.members)
    (hother : ∀ {added}, other.run = .ok added → added.Represents other.capacity other.members)
    (h : (union calls other).run = .ok set) :
    set.Represents calls.capacity (calls.members ∪ other.members) := by
  obtain ⟨before, hbefore, h⟩ := Except.bind_eq_ok.mp h
  obtain ⟨added, hadded, h⟩ := Except.bind_eq_ok.mp h
  obtain ⟨⟨changed, after⟩, hunion, h⟩ := Except.bind_eq_ok.mp h
  cases h
  exact (hcalls hbefore).union (hother hadded) hunion

/-- **Calls lead to a set of indices that stands for what they mean.** -/
theorem represents_of_run {calls : Calls} {set : IndexSet} (h : calls.run = .ok set) :
    set.Represents calls.capacity calls.members := by
  induction calls generalizing set with
  | new capacity =>
    cases h
    exact represents_ofCapacity capacity
  | insert calls index ih =>
    obtain ⟨before, hbefore, h⟩ := Except.bind_eq_ok.mp h
    obtain ⟨⟨new, after⟩, hinsert, h⟩ := Except.bind_eq_ok.mp h
    cases h
    exact (ih hbefore).insert hinsert
  | remove calls index ih =>
    obtain ⟨before, hbefore, h⟩ := Except.bind_eq_ok.mp h
    exact (ih hbefore).remove h
  | reset calls capacity ih =>
    obtain ⟨before, hbefore, h⟩ := Except.bind_eq_ok.mp h
    cases h
    exact represents_ofCapacity capacity
  | union calls other ih ihother => exact represents_of_run_union ih ihother h
  | join calls other ih ihother => exact represents_of_run_union ih ihother (run_join _ _ ▸ h)

theorem exists_run_union_iff {calls other : Calls}
    (hcalls : (∃ set, calls.run = .ok set) ↔ calls.Permitted)
    (hother : (∃ set, other.run = .ok set) ↔ other.Permitted) :
    (∃ set, (union calls other).run = .ok set) ↔ (union calls other).Permitted := by
  rw [Permitted, ← hcalls, ← hother]
  constructor
  · rintro ⟨set, h⟩
    obtain ⟨before, hbefore, h⟩ := Except.bind_eq_ok.mp h
    obtain ⟨added, hadded, h⟩ := Except.bind_eq_ok.mp h
    obtain ⟨result, hunion, -⟩ := Except.bind_eq_ok.mp h
    rw [← (represents_of_run hbefore).capacity_eq, ← (represents_of_run hadded).capacity_eq]
    exact ⟨⟨before, hbefore⟩, ⟨added, hadded⟩, exists_union_iff.mp ⟨result, hunion⟩⟩
  · rintro ⟨⟨before, hbefore⟩, ⟨added, hadded⟩, hcapacity⟩
    rw [← (represents_of_run hbefore).capacity_eq, ← (represents_of_run hadded).capacity_eq]
      at hcapacity
    obtain ⟨result, hunion⟩ := exists_union_iff.mpr hcapacity
    exact ⟨result.2, Except.bind_eq_ok.mpr ⟨before, hbefore, Except.bind_eq_ok.mpr ⟨added, hadded,
      Except.bind_eq_ok.mpr ⟨result, hunion, rfl⟩⟩⟩⟩

/-- **Calls fail only for an index or a capacity that does not fit.** -/
theorem exists_run_iff {calls : Calls} : (∃ set, calls.run = .ok set) ↔ calls.Permitted := by
  induction calls with
  | new capacity => exact ⟨fun _ => trivial, fun _ => ⟨_, rfl⟩⟩
  | insert calls index ih =>
    rw [Permitted, ← ih]
    constructor
    · rintro ⟨set, h⟩
      obtain ⟨before, hbefore, h⟩ := Except.bind_eq_ok.mp h
      obtain ⟨result, hinsert, -⟩ := Except.bind_eq_ok.mp h
      rw [← (represents_of_run hbefore).capacity_eq]
      exact ⟨⟨before, hbefore⟩, exists_insert_iff.mp ⟨result, hinsert⟩⟩
    · rintro ⟨⟨before, hbefore⟩, hlt⟩
      rw [← (represents_of_run hbefore).capacity_eq] at hlt
      obtain ⟨result, hinsert⟩ := exists_insert_iff.mpr hlt
      exact ⟨result.2, Except.bind_eq_ok.mpr ⟨before, hbefore,
        Except.bind_eq_ok.mpr ⟨result, hinsert, rfl⟩⟩⟩
  | remove calls index ih =>
    rw [Permitted, ← ih]
    constructor
    · rintro ⟨set, h⟩
      obtain ⟨before, hbefore, h⟩ := Except.bind_eq_ok.mp h
      rw [← (represents_of_run hbefore).capacity_eq]
      exact ⟨⟨before, hbefore⟩, exists_remove_iff.mp ⟨set, h⟩⟩
    · rintro ⟨⟨before, hbefore⟩, hlt⟩
      rw [← (represents_of_run hbefore).capacity_eq] at hlt
      obtain ⟨result, hremove⟩ := exists_remove_iff.mpr hlt
      exact ⟨result, Except.bind_eq_ok.mpr ⟨before, hbefore, hremove⟩⟩
  | reset calls capacity ih =>
    rw [Permitted, ← ih]
    constructor
    · rintro ⟨set, h⟩
      obtain ⟨before, hbefore, -⟩ := Except.bind_eq_ok.mp h
      exact ⟨before, hbefore⟩
    · rintro ⟨before, hbefore⟩
      exact ⟨_, Except.bind_eq_ok.mpr ⟨before, hbefore, rfl⟩⟩
  | union calls other ih ihother => exact exists_run_union_iff ih ihother
  | join calls other ih ihother =>
    rw [run_join]
    exact exists_run_union_iff ih ihother

/-- **Sets of indices refine finite sets.** Calls fail only if an index or a capacity does not fit.
After calls that do not fail no flag at or beyond the capacity is set, and membership, number,
emptiness, the ascending list of members, the question for a range of indices and the comparison
with a set of the same capacity are those of the finite set that the calls mean. Adding an index and
uniting with another set tell exactly whether that finite set changes. -/
theorem refines_finset (calls : Calls) :
    ((∃ set, calls.run = .ok set) ↔ calls.Permitted) ∧
    ∀ set, calls.run = .ok set →
      set.capacity = calls.capacity ∧
      (∀ index, calls.capacity ≤ index → isFlagged set.words index = false) ∧
      (∀ index, set.contains index = true ↔ index ∈ calls.members) ∧
      set.count = calls.members.card ∧
      (set.isEmpty = true ↔ calls.members = ∅) ∧
      set.toList.Pairwise (· < ·) ∧
      (∀ index, index ∈ set.toList ↔ index ∈ calls.members) ∧
      (∀ start stop, set.anyIn start stop = true ↔
        ∃ member ∈ calls.members, start ≤ member ∧ member < stop) ∧
      (∀ index new next, set.insert index = .ok (new, next) →
        (new = true ↔ (calls.insert index).members ≠ calls.members)) ∧
      ∀ other otherSet, Calls.run other = .ok otherSet →
        (set.capacity = otherSet.capacity →
          ((set == otherSet) = true ↔ calls.members = other.members)) ∧
        ∀ changed next, set.union otherSet = .ok (changed, next) →
          (changed = true ↔ (calls.union other).members ≠ calls.members) := by
  refine ⟨exists_run_iff, fun set h => ?_⟩
  have hset := represents_of_run h
  have hcapacity : set.capacity = calls.capacity := hset.capacity_eq
  refine ⟨hcapacity, fun index hindex => set.unused index (hcapacity ▸ hindex), hset.contains_iff,
    hset.count_eq, hset.isEmpty_iff, pairwise_indicesFrom 0 _, fun _ => hset.mem_toList,
    fun _ _ => hset.anyIn_iff, fun _ _ _ hinsert => hset.new_iff hinsert,
    fun other otherSet hrun => ⟨fun hsame => ?_, fun _ _ hunion => ?_⟩⟩
  · have hother := represents_of_run hrun
    rw [← hother.capacity_eq, ← hsame, hset.capacity_eq] at hother
    exact hset.beq_iff hother
  · exact hset.changed_iff (represents_of_run hrun) hunion

/-- A set with members on both sides of a border between words and at the end of the last word. -/
def straddling : Calls :=
  .union (.remove (.insert (.insert (.insert (.reset (.new 7) 130) 0) 63) 64) 0)
    (.insert (.new 130) 129)

theorem refines_finset_straddling : ∃ set, straddling.run = .ok set ∧ set.count = 3 ∧
    set.anyIn 65 1000 = true ∧ ¬ set.anyIn 65 129 = true ∧ 63 ∈ set.toList ∧
    ∀ index, 130 ≤ index → isFlagged set.words index = false := by
  obtain ⟨hruns, hagrees⟩ := refines_finset straddling
  have hpermitted : straddling.Permitted := by simp [straddling, Permitted, capacity]
  obtain ⟨set, hset⟩ := hruns.mpr hpermitted
  obtain ⟨-, hunused, -, hcount, -, -, hlist, hany, -⟩ := hagrees set hset
  refine ⟨set, hset, hcount.trans (by decide), (hany 65 1000).mpr (by decide), ?_,
    (hlist 63).mpr (by decide), hunused⟩
  rw [hany 65 129]
  decide

end Calls

end IndexSet

end JvmTrim
