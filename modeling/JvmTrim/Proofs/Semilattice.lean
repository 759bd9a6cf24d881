import JvmTrim.Lattice
import JvmTrim.Proofs.Join

/-!
# The laws of joins

Joining is idempotent, commutative and associative for everything that a frame is made of, as an
equation between representations: in whatever order the paths to an offset are taken, the frame
before it is the same in the end. For sets this needs members that their key tells apart. Origins
with offsets of more than 32 bits are not told apart, and none is ever recorded.

## Main definitions

* `OffsetSet.Built`, `OriginSet.Built`: the sets that the operations on sets make
* `IsSemilattice`, `Stack.IsSemilattice`: the laws of a join

## Main results

* `OrderedSet.eq_of_contains`: a set is told by its members
* `Progress.merge_of_before`: a frame becomes pending exactly if joining variables or stacks
  changes them
* `joins_are_semilattices`: the laws of all joins of an evaluation
-/

namespace JvmTrim

/-! ## Ordered sets -/

namespace OrderedSet

variable {α : Type} {key : α → Nat} {p : α → Prop} {a b c : OrderedSet key}

theorem contains_iff_mem (hkey : ∀ x y, p x → p y → key x = key y → x = y)
    (ha : ∀ x ∈ a.elements, p x) {x : α} (hx : p x) : a.contains x = true ↔ x ∈ a.elements := by
  refine ⟨fun h => ?_, contains_of_mem⟩
  obtain ⟨y, hy, hxy⟩ := contains_iff.mp h
  rwa [← hkey y x (ha y hy) hx hxy]

theorem nodup_elements (a : OrderedSet key) : a.elements.Nodup :=
  a.ascending.imp fun hlt heq => absurd (congrArg key heq) (Nat.ne_of_lt hlt)

/-- A set is told by its members, if keys tell them apart. -/
theorem eq_of_contains (hkey : ∀ x y, p x → p y → key x = key y → x = y)
    (ha : ∀ x ∈ a.elements, p x) (hb : ∀ x ∈ b.elements, p x)
    (h : ∀ x, a.contains x = b.contains x) : a = b := by
  have hperm : a.elements.Perm b.elements := by
    refine (List.perm_ext_iff_of_nodup a.nodup_elements b.nodup_elements).mpr fun x => ⟨?_, ?_⟩
    · intro hx
      exact (contains_iff_mem hkey hb (ha x hx)).mp ((h x).symm.trans (contains_of_mem hx))
    · intro hx
      exact (contains_iff_mem hkey ha (hb x hx)).mp ((h x).trans (contains_of_mem hx))
  refine ext (hperm.eq_of_pairwise (fun x y _ _ hxy hyx => ?_) a.ascending b.ascending)
  exact absurd (Nat.lt_trans hxy hyx) (Nat.lt_irrefl _)

theorem forall_mem_union (ha : ∀ x ∈ a.elements, p x) (hb : ∀ x ∈ b.elements, p x) :
    ∀ x ∈ (a.union b).elements, p x :=
  fun x hx => (mem_or_mem_of_mem_union hx).elim (ha x) (hb x)

theorem contains_union_eq (a b : OrderedSet key) (x : α) :
    (a.union b).contains x = (a.contains x || b.contains x) := by
  rw [Bool.eq_iff_iff, contains_union, Bool.or_eq_true]

theorem union_comm (hkey : ∀ x y, p x → p y → key x = key y → x = y)
    (ha : ∀ x ∈ a.elements, p x) (hb : ∀ x ∈ b.elements, p x) : a.union b = b.union a := by
  refine eq_of_contains hkey (forall_mem_union ha hb) (forall_mem_union hb ha) fun x => ?_
  rw [contains_union_eq, contains_union_eq, Bool.or_comm]

theorem union_assoc (hkey : ∀ x y, p x → p y → key x = key y → x = y)
    (ha : ∀ x ∈ a.elements, p x) (hb : ∀ x ∈ b.elements, p x) (hc : ∀ x ∈ c.elements, p x) :
    (a.union b).union c = a.union (b.union c) := by
  refine eq_of_contains hkey (forall_mem_union (forall_mem_union ha hb) hc)
    (forall_mem_union ha (forall_mem_union hb hc)) fun x => ?_
  simp only [contains_union_eq, Bool.or_assoc]

end OrderedSet

/-! ## Sets of offsets -/

namespace OffsetSet

/-- The sets of offsets that the operations on them make. -/
inductive Built : OffsetSet → Prop
  | empty : Built .empty
  | single (offset : Nat) : Built (.single offset)
  | record {set : OffsetSet} (h : Built set) (offset : Nat) : Built (set.record offset)
  | union {a b : OffsetSet} (ha : Built a) (hb : Built b) : Built (OrderedSet.union a b)

theorem contains_iff_mem {set : OffsetSet} {offset : Nat} :
    set.contains offset = true ↔ offset ∈ set.elements :=
  OrderedSet.contains_iff_mem (p := fun _ => True) (fun _ _ _ _ h => h) (fun _ _ => trivial) trivial

/-- Only offsets of 32 bits are kept. -/
theorem Built.lt_size {set : OffsetSet} (h : Built set) :
    ∀ offset ∈ set.elements, offset < UInt32.size := by
  have hrecorded (offset : Nat) : recordedOffset offset < UInt32.size :=
    Nat.mod_lt _ (by decide)
  induction h with
  | empty => exact fun _ h => absurd h List.not_mem_nil
  | single offset => simpa [OffsetSet.single] using hrecorded offset
  | record _ offset ih =>
    intro x hx
    rcases OrderedSet.mem_of_mem_insertOrdered hx with rfl | hx
    · exact hrecorded offset
    · exact ih x hx
  | union _ _ iha ihb =>
    intro x hx
    exact (OrderedSet.mem_or_mem_of_mem_union hx).elim (iha x) (ihb x)

theorem union_comm (a b : OffsetSet) : OrderedSet.union a b = OrderedSet.union b a :=
  OrderedSet.union_comm (p := fun _ => True) (fun _ _ _ _ h => h) (fun _ _ => trivial)
    fun _ _ => trivial

theorem union_assoc (a b c : OffsetSet) :
    OrderedSet.union (OrderedSet.union a b) c = OrderedSet.union a (OrderedSet.union b c) :=
  OrderedSet.union_assoc (p := fun _ => True) (fun _ _ _ _ h => h) (fun _ _ => trivial)
    (fun _ _ => trivial) fun _ _ => trivial

theorem contains_record (set : OffsetSet) (offset x : Nat) :
    (set.record offset).contains x = (recordedOffset offset == x || set.contains x) := by
  rw [Bool.eq_iff_iff, record, OrderedSet.contains_insert, Bool.or_eq_true, beq_iff_eq]

end OffsetSet

/-! ## Sets of origins -/

namespace Origin

/-- Whether the offset is one of 32 bits, as it is in all origins that are recorded. -/
def Recorded : Origin → Prop
  | entry => True
  | handler offset => offset < UInt32.size
  | instruction offset => offset < UInt32.size

/-- The order of origins: the method entry, all handlers by offset, all instructions by offset. -/
def Before : Origin → Origin → Prop
  | entry, handler _ => True
  | entry, instruction _ => True
  | handler a, handler b => a < b
  | handler _, instruction _ => True
  | instruction a, instruction b => a < b
  | _, _ => False

theorem rank_lt_rank_iff {a b : Origin} (ha : a.Recorded) (hb : b.Recorded) :
    a.rank < b.rank ↔ a.Before b := by
  cases a <;> cases b <;> simp [Recorded, Before, rank] at * <;> omega

theorem eq_of_rank_eq (a b : Origin) (ha : a.Recorded) (hb : b.Recorded) (h : a.rank = b.rank) :
    a = b := by
  cases a <;> cases b <;>
    simp only [Recorded, rank, handler.injEq, instruction.injEq] at * <;> omega

theorem recorded_ofInstruction (offset : Nat) : (ofInstruction offset).Recorded :=
  Nat.mod_lt _ (by decide)

end Origin

namespace OriginSet

/-- The sets of origins that the operations on them make. -/
inductive Built : OriginSet → Prop
  | empty : Built .empty
  | single {origin : Origin} (h : origin.Recorded) : Built (.singleton origin)
  | ofInstruction (offset : Nat) : Built (.ofInstruction offset)
  | union {a b : OriginSet} (ha : Built a) (hb : Built b) : Built (OrderedSet.union a b)

theorem Built.recorded {set : OriginSet} (h : Built set) :
    ∀ origin ∈ set.elements, origin.Recorded := by
  induction h with
  | empty => exact fun _ h => absurd h List.not_mem_nil
  | single h => simpa using h
  | ofInstruction offset =>
    simpa [OriginSet.ofInstruction] using Origin.recorded_ofInstruction offset
  | union _ _ iha ihb => exact OrderedSet.forall_mem_union iha ihb

theorem Built.contains_iff_mem {set : OriginSet} (h : Built set) {origin : Origin}
    (horigin : origin.Recorded) : set.contains origin = true ↔ origin ∈ set.elements :=
  OrderedSet.contains_iff_mem Origin.eq_of_rank_eq h.recorded horigin

/-- Origins are listed in their order, each once. -/
theorem Built.pairwise {set : OriginSet} (h : Built set) : set.elements.Pairwise Origin.Before :=
  set.ascending.imp_of_mem fun ha hb =>
    (Origin.rank_lt_rank_iff (h.recorded _ ha) (h.recorded _ hb)).mp

end OriginSet

/-! ## Values -/

/-- The order of precisions: unknown values, values with a symbol, constants. -/
def Precision.rank : Precision → Nat
  | unknown => 0
  | specific => 1
  | particular => 2

instance : LE Precision := ⟨fun a b => a.rank ≤ b.rank⟩

theorem Precision.unknown_le (a : Precision) : unknown ≤ a := Nat.zero_le a.rank

theorem Precision.le_refl (a : Precision) : a ≤ a := Nat.le_refl a.rank

namespace Abstract

variable {α : Type} [DecidableEq α]

theorem join_comm (a b : Abstract α) : a.join b = b.join a := by
  grind [join]

theorem join_assoc (a b c : Abstract α) : (a.join b).join c = a.join (b.join c) := by
  grind [join]

theorem precision_join_le_left (a b : Abstract α) : (a.join b).precision ≤ a.precision := by
  rw [join]
  split
  · exact Precision.le_refl _
  · exact Precision.unknown_le _

end Abstract

namespace Reference

theorem join_comm (a b : Reference) : a.join b = b.join a := by
  cases a <;> cases b <;> grind [join, isNotNull]

theorem join_assoc (a b c : Reference) : (a.join b).join c = a.join (b.join c) := by
  cases a <;> cases b <;> cases c <;> grind [join, isNotNull]

theorem precision_join_le_left (a b : Reference) :
    (Value.reference (a.join b)).precision ≤ (Value.reference a).precision := by
  cases a <;> cases b <;> grind [join, Value.precision, Precision.le_refl, Precision.unknown_le]

theorem isNotNull_of_isNotNull_join {a b : Reference} (h : (a.join b).isNotNull = true) :
    a.isNotNull = true ∧ b.isNotNull = true := by
  cases a <;> cases b <;> grind [join, isNotNull]

end Reference

namespace Value

/-- Whether the offsets of a return address are a set that the operations on sets make. -/
def Built (value : Value) : Prop :=
  ∀ offsets, value.returnAddresses? = some offsets → offsets.Built

theorem Built.join {a b : Value} (ha : a.Built) (hb : b.Built) : (a.join b).Built := by
  cases a <;> cases b <;> intro offsets h <;> cases h
  exact (ha _ rfl).union (hb _ rfl)

theorem join_self (a : Value) : a.join a = a := a.covers_refl

theorem join_comm (a b : Value) : a.join b = b.join a := by
  cases a <;> cases b <;> simp only [join, Abstract.join_comm, Reference.join_comm]
  rw [OffsetSet.union_comm]

theorem join_assoc (a b c : Value) : (a.join b).join c = a.join (b.join c) := by
  cases a <;> cases b <;> cases c <;>
    simp only [join, Abstract.join_assoc, Reference.join_assoc, OffsetSet.union_assoc]

theorem precision_join_le_left (a b : Value) : (a.join b).precision ≤ a.precision := by
  cases a <;> cases b <;> first
    | exact Precision.unknown_le _
    | exact Precision.le_refl _
    | exact Abstract.precision_join_le_left _ _
    | exact Reference.precision_join_le_left _ _

/-- **A join is no more precise than its sides.** -/
theorem precision_join_le (a b : Value) :
    (a.join b).precision ≤ a.precision ∧ (a.join b).precision ≤ b.precision :=
  ⟨precision_join_le_left a b, join_comm b a ▸ precision_join_le_left b a⟩

/-- **A join is known not to be null only if its sides are.** -/
theorem isNotNull_of_isNotNull_join {a b : Value} (h : (a.join b).isNotNull = true) :
    a.isNotNull = true ∧ b.isNotNull = true := by
  cases a <;> cases b <;> first
    | exact Reference.isNotNull_of_isNotNull_join h
    | exact Bool.noConfusion h

end Value

/-! ## Laws -/

section Laws

variable {α : Type} [JoinSemilattice α] [DecidableEq α]

open JoinSemilattice

theorem joinWith_eq (old new : α) :
    joinWith old new = (join old new, join old new != old) := by
  rw [joinWith]
  split
  · rename_i h
    simp [h]
  · rename_i h
    simp [h]

/-- The laws of a join on a domain. -/
structure IsSemilattice (domain : α → Prop) : Prop where
  closed : ∀ a b, domain a → domain b → domain (join a b)
  idempotent : ∀ a, domain a → join a a = a
  commutative : ∀ a b, domain a → domain b → join a b = join b a
  associative : ∀ a b c, domain a → domain b → domain c → join (join a b) c = join a (join b c)
  /-- What is joined in is a change exactly if the result is not what was there before. -/
  change : ∀ old new, domain old → domain new →
    (joinWith old new).1 = join old new ∧ ((joinWith old new).2 = true ↔ join old new ≠ old)

theorem change_joinWith (old new : α) :
    (joinWith old new).1 = join old new ∧ ((joinWith old new).2 = true ↔ join old new ≠ old) :=
  ⟨congrArg Prod.fst (joinWith_eq old new), by rw [joinWith_eq, bne_iff_ne]⟩

end Laws

/-! ## Slots, variables and stacks -/

/-- Whether the sets of a slot are such as the operations on sets make. -/
structure Slot.Built (slot : Slot) : Prop where
  value : slot.value.Built
  producers : slot.producers.Built

/-- Whether there is this number of variables, with sets such as the operations on sets make. -/
structure Locals.Built (size : Nat) (locals : Locals) : Prop where
  size_eq : locals.size = size
  slot : ∀ slot ∈ locals.slots, slot.Built

/-- Whether the stack has this height, with sets such as the operations on sets make. -/
structure Stack.Built (height : Nat) (stack : Stack) : Prop where
  height_eq : stack.height = height
  word : ∀ word ∈ stack.words, word.Built

theorem OffsetSet.isSemilattice : IsSemilattice OffsetSet.Built where
  closed _ _ ha hb := ha.union hb
  idempotent a _ := OrderedSet.union_self a
  commutative a b _ _ := OffsetSet.union_comm a b
  associative a b c _ _ _ := OffsetSet.union_assoc a b c
  change old new _ _ := change_joinWith old new

theorem OriginSet.isSemilattice : IsSemilattice OriginSet.Built where
  closed _ _ ha hb := ha.union hb
  idempotent a _ := OrderedSet.union_self a
  commutative _ _ ha hb := OrderedSet.union_comm Origin.eq_of_rank_eq ha.recorded hb.recorded
  associative _ _ _ ha hb hc :=
    OrderedSet.union_assoc Origin.eq_of_rank_eq ha.recorded hb.recorded hc.recorded
  change old new _ _ := change_joinWith old new

theorem Value.isSemilattice : IsSemilattice Value.Built where
  closed _ _ ha hb := ha.join hb
  idempotent a _ := a.join_self
  commutative a b _ _ := a.join_comm b
  associative a b c _ _ _ := a.join_assoc b c
  change old new _ _ := change_joinWith old new

theorem Slot.isSemilattice : IsSemilattice Slot.Built where
  closed _ _ ha hb := ⟨ha.value.join hb.value, ha.producers.union hb.producers⟩
  idempotent a _ := a.covers_refl
  commutative a b ha hb := congrArg₂ Slot.mk (a.value.join_comm b.value)
    (OriginSet.isSemilattice.commutative _ _ ha.producers hb.producers)
  associative a b c ha hb hc := congrArg₂ Slot.mk (a.value.join_assoc b.value c.value)
    (OriginSet.isSemilattice.associative _ _ _ ha.producers hb.producers hc.producers)
  change old new _ _ := change_joinWith old new

section Pointwise

variable {as bs cs : Array Slot}

theorem built_of_mem_zipWith (ha : ∀ slot ∈ as, slot.Built) (hb : ∀ slot ∈ bs, slot.Built) :
    ∀ slot ∈ as.zipWith Slot.join bs, slot.Built := by
  intro slot h
  obtain ⟨i, h⟩ := Array.mem_iff_getElem?.mp h
  obtain ⟨a, b, hia, hib, rfl⟩ := Array.getElem?_zipWith_eq_some.mp h
  exact Slot.isSemilattice.closed _ _ (ha a (Array.mem_of_getElem? hia))
    (hb b (Array.mem_of_getElem? hib))

theorem zipWith_join_self : as.zipWith Slot.join as = as :=
  zipWith_eq_left_iff.mpr fun _ a h => ⟨a, h, a.covers_refl⟩

theorem zipWith_join_comm (ha : ∀ slot ∈ as, slot.Built) (hb : ∀ slot ∈ bs, slot.Built) :
    as.zipWith Slot.join bs = bs.zipWith Slot.join as := by
  refine Array.ext_getElem? fun i => ?_
  rw [Array.getElem?_zipWith, Array.getElem?_zipWith]
  cases hia : as[i]? with
  | none => cases bs[i]? <;> rfl
  | some a =>
    cases hib : bs[i]? with
    | none => rfl
    | some b =>
      exact congrArg some (Slot.isSemilattice.commutative a b (ha a (Array.mem_of_getElem? hia))
        (hb b (Array.mem_of_getElem? hib)))

theorem zipWith_join_assoc (ha : ∀ slot ∈ as, slot.Built) (hb : ∀ slot ∈ bs, slot.Built)
    (hc : ∀ slot ∈ cs, slot.Built) :
    (as.zipWith Slot.join bs).zipWith Slot.join cs =
      as.zipWith Slot.join (bs.zipWith Slot.join cs) := by
  refine Array.ext_getElem? fun i => ?_
  simp only [Array.getElem?_zipWith]
  cases hia : as[i]? with
  | none => rfl
  | some a =>
    cases hib : bs[i]? with
    | none => rfl
    | some b =>
      cases hic : cs[i]? with
      | none => rfl
      | some c =>
        exact congrArg some (Slot.isSemilattice.associative a b c
          (ha a (Array.mem_of_getElem? hia)) (hb b (Array.mem_of_getElem? hib))
          (hc c (Array.mem_of_getElem? hic)))

end Pointwise

theorem Locals.isSemilattice (size : Nat) : IsSemilattice (Locals.Built size) where
  closed _ _ ha hb :=
    ⟨(Array.size_zipWith ..).trans
        ((congrArg₂ min ha.size_eq hb.size_eq).trans (Nat.min_self size)),
      built_of_mem_zipWith ha.slot hb.slot⟩
  idempotent _ _ := congrArg Locals.mk zipWith_join_self
  commutative _ _ ha hb := congrArg Locals.mk (zipWith_join_comm ha.slot hb.slot)
  associative _ _ _ ha hb hc := congrArg Locals.mk (zipWith_join_assoc ha.slot hb.slot hc.slot)
  change old new _ _ := change_joinWith old new

/-- The laws of the join of stacks of a height, which always succeeds. -/
structure Stack.IsSemilattice (height : Nat) : Prop where
  closed : ∀ a b, Built height a → Built height b → ∃ c, a.join b = .ok c ∧ Built height c
  idempotent : ∀ a, Built height a → a.join a = .ok a
  commutative : ∀ a b, Built height a → Built height b → a.join b = b.join a
  associative : ∀ a b c, Built height a → Built height b → Built height c →
    (do (← a.join b).join c) = (do a.join (← b.join c))
  /-- What is joined in is a change exactly if the result is not what was there before. -/
  change : ∀ old new joined : Stack, old.join new = .ok joined →
    ∃ change, old.joinWith new = .ok (joined, change) ∧ (change = true ↔ joined ≠ old)

namespace Stack

theorem join_of_height_eq {a b : Stack} (h : a.height = b.height) :
    a.join b = .ok ⟨a.words.zipWith Slot.join b.words⟩ := by
  rw [join, if_pos h]

theorem Built.zipWith {height : Nat} {a b : Stack} (ha : Built height a) (hb : Built height b) :
    Built height ⟨a.words.zipWith Slot.join b.words⟩ where
  height_eq := (Array.size_zipWith ..).trans
    ((congrArg₂ min ha.height_eq hb.height_eq).trans (Nat.min_self height))
  word := built_of_mem_zipWith ha.word hb.word

theorem joinWith_eq_ok {old new joined : Stack} {change : Bool} :
    old.joinWith new = .ok (joined, change) ↔
      old.join new = .ok joined ∧ change = (joined != old) := by
  rw [joinWith, Except.bind_eq_ok]
  constructor
  · rintro ⟨_, hj, h⟩
    cases h
    exact ⟨hj, rfl⟩
  · rintro ⟨hj, rfl⟩
    exact ⟨joined, hj, rfl⟩

theorem isSemilattice (height : Nat) : IsSemilattice height where
  closed _ _ ha hb :=
    ⟨_, join_of_height_eq (ha.height_eq.trans hb.height_eq.symm), ha.zipWith hb⟩
  idempotent a _ := by
    rw [join_of_height_eq rfl, zipWith_join_self]
  commutative _ _ ha hb := by
    have h := ha.height_eq.trans hb.height_eq.symm
    rw [join_of_height_eq h, join_of_height_eq h.symm, zipWith_join_comm ha.word hb.word]
  associative a b c ha hb hc := by
    have hab := ha.zipWith hb
    have hbc := hb.zipWith hc
    rw [join_of_height_eq (ha.height_eq.trans hb.height_eq.symm),
      join_of_height_eq (hb.height_eq.trans hc.height_eq.symm)]
    change join _ _ = join _ _
    rw [join_of_height_eq (hab.height_eq.trans hc.height_eq.symm),
      join_of_height_eq (ha.height_eq.trans hbc.height_eq.symm),
      zipWith_join_assoc ha.word hb.word hc.word]
  change _ _ joined h := ⟨_, joinWith_eq_ok.mpr ⟨h, rfl⟩, bne_iff_ne⟩

end Stack

/-- Joining a frame into one that is there already makes its offset pending exactly if that
changes the variables or the stack. -/
theorem Progress.merge_of_before {progress : Progress} {offset : Nat} {old frame : Frame}
    {stack : Stack} {change : Bool} (hbefore : progress.evaluation.before? offset = some old)
    (hstack : old.stack.joinWith frame.stack = .ok (stack, change)) :
    progress.merge offset frame =
      if (joinWith old.locals frame.locals).2 || change then do
        let evaluation ← progress.evaluation.modifySite offset fun site =>
          { site with before := some ⟨(joinWith old.locals frame.locals).1, stack⟩ }
        return { progress with evaluation, pending := progress.pending.insert offset }
      else .ok progress := by
  obtain ⟨hjoin, rfl⟩ := Stack.joinWith_eq_ok.mp hstack
  have hat : old.joinAt offset frame = .ok ⟨old.locals.join frame.locals, stack⟩ := by
    rw [Frame.joinAt, hjoin]
  have hchange : ((joinWith old.locals frame.locals).2 || stack != old.stack) = true ↔
      ¬(⟨old.locals.join frame.locals, stack⟩ : Frame) = old := by
    rw [joinWith_eq, Bool.or_eq_true, bne_iff_ne, bne_iff_ne, ← not_and_or]
    exact not_congr ⟨fun h => congrArg₂ Frame.mk h.1 h.2,
      fun h => ⟨congrArg Frame.locals h, congrArg Frame.stack h⟩⟩
  rw [merge, hbefore]
  simp only [hat]
  change (if (⟨old.locals.join frame.locals, stack⟩ : Frame) = old then Except.ok progress
    else _) = _
  by_cases h : (⟨old.locals.join frame.locals, stack⟩ : Frame) = old
  · rw [if_pos h, if_neg fun hc => hchange.mp hc h]
  · rw [if_neg h, if_pos (hchange.mpr h), joinWith_eq]
    rfl

/-! ## All joins -/

/-- Sets that list their members in order, each once, so that asking for a member finds it. -/
structure OrderedSet.Sorted {α : Type} {key : α → Nat} (domain : OrderedSet key → Prop)
    (element : α → Prop) (before : α → α → Prop) : Prop where
  pairwise : ∀ set, domain set → set.elements.Pairwise before
  contains_iff : ∀ set, domain set → ∀ x, element x → (set.contains x = true ↔ x ∈ set.elements)
  contains_union : ∀ a b, domain a → domain b → ∀ x,
    (a.union b).contains x = (a.contains x || b.contains x)

theorem OffsetSet.sorted : OrderedSet.Sorted OffsetSet.Built (fun _ => True) (· < ·) where
  pairwise set _ := set.ascending
  contains_iff _ _ _ _ := contains_iff_mem
  contains_union a b _ _ := OrderedSet.contains_union_eq a b

theorem OriginSet.sorted : OrderedSet.Sorted OriginSet.Built Origin.Recorded Origin.Before where
  pairwise _ h := h.pairwise
  contains_iff _ h _ hx := h.contains_iff_mem hx
  contains_union a b _ _ := OrderedSet.contains_union_eq a b

/-- **Joins are semilattice operations.** On what is made of built sets, joining is idempotent,
commutative and associative, and a change is told exactly if there is one; a join is no more precise
than its sides; and sets list their members in order, those of a union being those of both sides. -/
theorem joins_are_semilattices :
    (IsSemilattice OffsetSet.Built ∧ IsSemilattice OriginSet.Built ∧ IsSemilattice Value.Built ∧
      IsSemilattice Slot.Built ∧ (∀ size, IsSemilattice (Locals.Built size)) ∧
      ∀ height, Stack.IsSemilattice height) ∧
    (∀ a b : Value, (a.join b).precision ≤ a.precision ∧ (a.join b).precision ≤ b.precision) ∧
    (∀ a b : Value, (a.join b).isNotNull = true → a.isNotNull = true ∧ b.isNotNull = true) ∧
    OrderedSet.Sorted OffsetSet.Built (fun _ => True) (· < ·) ∧
    OrderedSet.Sorted OriginSet.Built Origin.Recorded Origin.Before ∧
    ∀ (set : OffsetSet) (offset x : Nat),
      (set.record offset).contains x = (recordedOffset offset == x || set.contains x) :=
  ⟨⟨OffsetSet.isSemilattice, OriginSet.isSemilattice, Value.isSemilattice, Slot.isSemilattice,
      Locals.isSemilattice, Stack.isSemilattice⟩,
    Value.precision_join_le, fun _ _ => Value.isNotNull_of_isNotNull_join,
    OffsetSet.sorted, OriginSet.sorted, OffsetSet.contains_record⟩

end JvmTrim
