import JvmTrim.Association
import JvmTrim.ClassFile.Index
import Mathlib.Data.List.Induction
import Mathlib.Data.List.InsertIdx
import Mathlib.Data.List.Nodup

/-!
# Class pools remember their history

What a class pool holds is determined by the calls that have led to it: a name stands for the class
that the last call about the name has added, and the names are in the order of the calls that
brought them in and were not undone since. Two accounts of a pool are compared with this. The class
pool is a list of classes and looks for names. The indexed pool trusts the slots of its index, and
every removal moves some of them; a slot that was missed would give the wrong class, or a fault.

The one invariant of the index is that a name has a slot exactly if the class in that slot has the
name (`IndexedPool.Consistent`). It makes every operation of the indexed pool the same operation of
the class pool, which is then compared with the history.

## Main definitions

* `PoolCall`: the calls that change a pool
* `LastAdded`, `EnteredAt`: what calls say about a name
* `IndexedPool.Consistent`: an index that fits the classes

## Main results

* `IndexedPool.Consistent.add`, `IndexedPool.Consistent.remove`: an index that is kept
* `ClassPool.reflects_afterCalls`: a class pool holds what its history says
* `IndexedPool.afterCalls_reflects`: so does a pool with an index, without a fault
-/

namespace JvmTrim

/-! ## Histories -/

/-- A call that changes a pool. -/
inductive PoolCall
  | add (file : ClassFile)
  | remove (name : String)
  deriving DecidableEq, Repr

/-- The name that a call is about. -/
def PoolCall.name : PoolCall → String
  | add file => file.name
  | remove name => name

/-- Whether a class was the last one that was added under a name, and was not removed since. -/
def LastAdded (calls : List PoolCall) (name : String) (file : ClassFile) : Prop :=
  ∃ before after, calls = before ++ .add file :: after ∧ file.name = name ∧
    ∀ call ∈ after, call.name ≠ name

/-- Whether a name has been there since the call at a position: nothing was there under the name
when that call added a class, and the name was not removed since. -/
def EnteredAt (calls : List PoolCall) (name : String) (position : Nat) : Prop :=
  ∃ before file after, calls = before ++ .add file :: after ∧ file.name = name ∧
    before.length = position ∧ (∀ other, ¬ LastAdded before name other) ∧
    .remove name ∉ after

/-- A member of a longer list is the last one or was there before. -/
theorem concat_eq_append_cons_iff {α : Type} {xs before after : List α} {x y : α} :
    xs ++ [x] = before ++ y :: after ↔
      (after = [] ∧ xs = before ∧ x = y) ∨
        ∃ rest, after = rest ++ [x] ∧ xs = before ++ y :: rest := by
  rcases List.eq_nil_or_concat after with rfl | ⟨rest, last, rfl⟩
  · simp
  · rw [List.concat_eq_append, ← List.cons_append, ← List.append_assoc, List.append_singleton_inj]
    constructor
    · rintro ⟨hxs, rfl⟩
      exact .inr ⟨rest, rfl, hxs⟩
    · rintro (⟨hnil, -⟩ | ⟨rest', hrest, hxs⟩)
      · exact absurd hnil (List.append_ne_nil_of_right_ne_nil _ (List.cons_ne_nil _ _))
      · obtain ⟨rfl, rfl⟩ := List.append_singleton_inj.mp hrest
        exact ⟨hxs, rfl⟩

section

variable {calls : List PoolCall} {call : PoolCall} {name : String} {file : ClassFile}

theorem not_lastAdded_nil : ¬ LastAdded [] name file := by
  rintro ⟨before, after, h, -⟩
  cases List.append_eq_nil_iff.mp h.symm |>.2

theorem LastAdded.name_eq (h : LastAdded calls name file) : file.name = name := by
  obtain ⟨-, -, -, hname, -⟩ := h
  exact hname

/-- One more call decides about its own name and leaves the others. -/
theorem lastAdded_concat : LastAdded (calls ++ [call]) name file ↔
    (call = .add file ∧ file.name = name) ∨ (call.name ≠ name ∧ LastAdded calls name file) := by
  unfold LastAdded
  simp only [concat_eq_append_cons_iff]
  constructor
  · rintro ⟨before, after, ⟨rfl, -, hcall⟩ | ⟨rest, rfl, hcalls⟩, hname, hafter⟩
    · exact .inl ⟨hcall, hname⟩
    · refine .inr ⟨hafter call (by simp), before, rest, hcalls, hname, fun other hother => ?_⟩
      exact hafter other (List.mem_append_left _ hother)
  · rintro (⟨hcall, hname⟩ | ⟨hother, before, after, hcalls, hname, hafter⟩)
    · exact ⟨calls, [], .inl ⟨rfl, rfl, hcall⟩, hname, by simp⟩
    · refine ⟨before, after ++ [call], .inr ⟨after, rfl, hcalls⟩, hname, ?_⟩
      intro later hlater
      rcases List.mem_append.mp hlater with hlater | hlater
      · exact hafter later hlater
      · rw [List.mem_singleton.mp hlater]
        exact hother

/-- One more call brings its name in if nothing was there, and takes it away if it removes it. -/
theorem enteredAt_concat {position : Nat} : EnteredAt (calls ++ [call]) name position ↔
    (∃ file, call = .add file ∧ file.name = name ∧ calls.length = position ∧
      ∀ other, ¬ LastAdded calls name other) ∨
    (call ≠ .remove name ∧ EnteredAt calls name position) := by
  unfold EnteredAt
  simp only [concat_eq_append_cons_iff]
  constructor
  · rintro ⟨before, file, after, ⟨rfl, rfl, hcall⟩ | ⟨rest, rfl, hcalls⟩, hname, hposition, hnew,
      hstays⟩
    · exact .inl ⟨file, hcall, hname, hposition, hnew⟩
    · rw [List.mem_append, List.mem_singleton, not_or] at hstays
      exact .inr ⟨Ne.symm hstays.2, before, file, rest, hcalls, hname, hposition, hnew, hstays.1⟩
  · rintro (⟨file, hcall, hname, hposition, hnew⟩ |
      ⟨hother, before, file, after, hcalls, hname, hposition, hnew, hstays⟩)
    · exact ⟨calls, file, [], .inl ⟨rfl, rfl, hcall⟩, hname, hposition, hnew, by simp⟩
    · refine ⟨before, file, after ++ [call], .inr ⟨after, rfl, hcalls⟩, hname, hposition, hnew, ?_⟩
      rw [List.mem_append, List.mem_singleton, not_or]
      exact ⟨hstays, Ne.symm hother⟩

theorem EnteredAt.lt_length {position : Nat} (h : EnteredAt calls name position) :
    position < calls.length := by
  obtain ⟨before, file, after, rfl, -, rfl, -⟩ := h
  simp

/-- A name has been there since some call exactly if a class was added under it last. -/
theorem exists_enteredAt_iff :
    (∃ position, EnteredAt calls name position) ↔ ∃ file, LastAdded calls name file := by
  induction calls using List.reverseRecOn with
  | nil =>
    simp only [not_lastAdded_nil, exists_false, iff_false, not_exists]
    exact fun position h => Nat.not_lt_zero _ h.lt_length
  | append_singleton calls call ih =>
    simp only [enteredAt_concat, lastAdded_concat, exists_or, exists_and_left, ih]
    cases call with
    | add file =>
      simp only [↓existsAndEq, PoolCall.add.injEq, ← not_exists, true_and, exists_eq_left', ne_eq,
        reduceCtorEq, not_false_eq_true, PoolCall.name]
      tauto
    | remove removed => simp [PoolCall.name]

end

/-! ## What a class pool holds -/

namespace ClassPool

/-- The names of the classes, in their order. -/
def names (pool : ClassPool) : List String := pool.classes.map (·.name)

/-- A pool after one more call. -/
def after (pool : ClassPool) : PoolCall → ClassPool
  | .add file => pool.add file
  | .remove name => pool.remove name

/-- The pool after all calls, in their order, on a pool without classes. -/
def afterCalls (calls : List PoolCall) : ClassPool := calls.foldl after empty

variable {pool : ClassPool} {file other : ClassFile} {name : String}

theorem afterCalls_concat (calls : List PoolCall) (call : PoolCall) :
    afterCalls (calls ++ [call]) = (afterCalls calls).after call :=
  List.foldl_concat _ _ _ _

theorem any_name_eq_iff : pool.classes.any (·.name == name) = true ↔ name ∈ pool.names := by
  simp [names]

theorem add_of_mem (h : file.name ∈ pool.names) :
    pool.add file =
      ⟨pool.classes.map fun other => if other.name == file.name then file else other⟩ :=
  if_pos (any_name_eq_iff.mpr h)

theorem add_of_notMem (h : file.name ∉ pool.names) : pool.add file = ⟨pool.classes ++ [file]⟩ :=
  if_neg (any_name_eq_iff.not.mpr h)

/-- A replacement keeps the position of the name. -/
theorem names_add_of_mem (h : file.name ∈ pool.names) : (pool.add file).names = pool.names := by
  rw [add_of_mem h, names, names, List.map_map]
  refine List.map_congr_left fun other _ => ?_
  rw [Function.comp_apply]
  split
  · rename_i hname
    exact (beq_iff_eq.mp hname).symm
  · rfl

/-- A new name comes last. -/
theorem names_add_of_notMem (h : file.name ∉ pool.names) :
    (pool.add file).names = pool.names ++ [file.name] := by
  rw [add_of_notMem h, names, List.map_append]
  rfl

theorem names_remove : (pool.remove name).names = pool.names.filter (· != name) := by
  rw [names, names, List.filter_map]
  rfl

theorem mem_add : other ∈ (pool.add file).classes ↔
    other = file ∨ (file.name ≠ other.name ∧ other ∈ pool.classes) := by
  by_cases hmem : file.name ∈ pool.names
  · obtain ⟨old, hold, hname⟩ := List.mem_map.mp hmem
    rw [add_of_mem hmem, List.mem_map]
    constructor
    · rintro ⟨old, hold, rfl⟩
      split
      · exact .inl rfl
      · rename_i hne
        exact .inr ⟨fun heq => hne (beq_iff_eq.mpr heq.symm), hold⟩
    · rintro (rfl | ⟨hne, hother⟩)
      · exact ⟨old, hold, if_pos (beq_iff_eq.mpr hname)⟩
      · exact ⟨other, hother, if_neg fun heq => hne (beq_iff_eq.mp heq).symm⟩
  · have hne (hother : other ∈ pool.classes) : file.name ≠ other.name := fun heq =>
      hmem (List.mem_map.mpr ⟨other, hother, heq.symm⟩)
    rw [add_of_notMem hmem, List.mem_append, List.mem_singleton, or_comm]
    exact or_congr_right ⟨fun h => ⟨hne h, h⟩, And.right⟩

theorem mem_remove : other ∈ (pool.remove name).classes ↔
    name ≠ other.name ∧ other ∈ pool.classes := by
  rw [remove, List.mem_filter, bne_iff_ne, and_comm, ne_comm]

/-- A class can be looked up exactly if it is in the pool. -/
theorem get?_eq_some_iff (hnodup : pool.names.Nodup) :
    pool.get? name = some file ↔ file ∈ pool.classes ∧ file.name = name := by
  constructor
  · intro h
    exact ⟨List.mem_of_find?_eq_some h, by simpa using List.find?_some h⟩
  · rintro ⟨hfile, hname⟩
    cases hget : pool.get? name with
    | none => exact absurd (beq_iff_eq.mpr hname) (List.find?_eq_none.mp hget file hfile)
    | some found =>
      have hfound : found.name = name := by simpa using List.find?_some hget
      rw [List.inj_on_of_nodup_map hnodup (List.mem_of_find?_eq_some hget) hfile
        (hfound.trans hname.symm)]

theorem get?_eq_none (h : name ∉ pool.names) : pool.get? name = none :=
  List.find?_eq_none.mpr fun file hfile hname =>
    h (List.mem_map.mpr ⟨file, hfile, beq_iff_eq.mp hname⟩)

theorem remove_of_notMem (h : name ∉ pool.names) : pool.remove name = pool :=
  congrArg ClassPool.mk (List.filter_eq_self.mpr fun file hfile =>
    bne_iff_ne.mpr fun hname => h (List.mem_map.mpr ⟨file, hfile, hname⟩))

/-- What a pool holds after calls. -/
structure Reflects (pool : ClassPool) (calls : List PoolCall) : Prop where
  /-- The names are distinct. -/
  nodup : pool.names.Nodup
  /-- The classes are those that were added last under their names. -/
  mem_iff (file : ClassFile) : file ∈ pool.classes ↔ LastAdded calls file.name file
  /-- The names stand in the order in which they have come. -/
  ordered : pool.names.Pairwise fun a b =>
    ∀ i j, EnteredAt calls a i → EnteredAt calls b j → i < j

namespace Reflects

variable {calls : List PoolCall}

theorem mem_names_iff (h : pool.Reflects calls) :
    name ∈ pool.names ↔ ∃ file, LastAdded calls name file := by
  rw [names, List.mem_map]
  constructor
  · rintro ⟨file, hfile, rfl⟩
    exact ⟨file, (h.mem_iff file).mp hfile⟩
  · rintro ⟨file, hlast⟩
    obtain rfl := hlast.name_eq
    exact ⟨file, (h.mem_iff file).mpr hlast, rfl⟩

theorem get?_eq_some_iff (h : pool.Reflects calls) :
    pool.get? name = some file ↔ LastAdded calls name file := by
  rw [ClassPool.get?_eq_some_iff h.nodup, h.mem_iff]
  constructor
  · rintro ⟨hlast, rfl⟩
    exact hlast
  · intro hlast
    obtain rfl := hlast.name_eq
    exact ⟨hlast, rfl⟩

theorem add (h : pool.Reflects calls) : (pool.add file).Reflects (calls ++ [.add file]) where
  nodup := by
    by_cases hmem : file.name ∈ pool.names
    · rw [names_add_of_mem hmem]
      exact h.nodup
    · rw [names_add_of_notMem hmem]
      exact List.nodup_append_comm.mp (List.nodup_cons.mpr ⟨hmem, h.nodup⟩)
  mem_iff other := by
    rw [mem_add, lastAdded_concat, h.mem_iff]
    refine or_congr_left ⟨?_, fun ⟨hadd, _⟩ => (PoolCall.add.inj hadd).symm⟩
    rintro rfl
    exact ⟨rfl, rfl⟩
  ordered := by
    -- a name that was there has not entered anew
    have hthere {name : String} (hmem : name ∈ pool.names) {i : Nat}
        (hi : EnteredAt (calls ++ [.add file]) name i) : EnteredAt calls name i := by
      obtain ⟨-, -, -, -, hnothing⟩ | ⟨-, hi⟩ := enteredAt_concat.mp hi
      · obtain ⟨other, hother⟩ := h.mem_names_iff.mp hmem
        exact absurd hother (hnothing other)
      · exact hi
    have hold : pool.names.Pairwise fun a b => ∀ i j, EnteredAt (calls ++ [.add file]) a i →
        EnteredAt (calls ++ [.add file]) b j → i < j :=
      h.ordered.imp_of_mem fun ha hb hlt i j hi hj => hlt i j (hthere ha hi) (hthere hb hj)
    by_cases hmem : file.name ∈ pool.names
    · rw [names_add_of_mem hmem]
      exact hold
    · rw [names_add_of_notMem hmem]
      refine List.pairwise_append.mpr ⟨hold, List.pairwise_singleton _ _, ?_⟩
      intro name hname last hlast i j hi hj
      rw [List.mem_singleton.mp hlast] at hj
      have hlt := (hthere hname hi).lt_length
      obtain ⟨-, -, -, hlength, -⟩ | ⟨-, hj⟩ := enteredAt_concat.mp hj
      · exact hlength ▸ hlt
      · exact absurd (h.mem_names_iff.mpr (exists_enteredAt_iff.mp ⟨j, hj⟩)) hmem

theorem remove (h : pool.Reflects calls) :
    (pool.remove name).Reflects (calls ++ [.remove name]) where
  nodup := by
    rw [names_remove]
    exact h.nodup.filter _
  mem_iff other := by
    rw [mem_remove, lastAdded_concat, h.mem_iff]
    simp [PoolCall.name]
  ordered := by
    have hthere {other : String} {i : Nat}
        (hi : EnteredAt (calls ++ [.remove name]) other i) : EnteredAt calls other i := by
      obtain ⟨_, hadd, -⟩ | ⟨-, hi⟩ := enteredAt_concat.mp hi
      · cases hadd
      · exact hi
    rw [names_remove]
    exact (h.ordered.filter _).imp fun hlt i j hi hj => hlt i j (hthere hi) (hthere hj)

end Reflects

/-- **A class pool holds what its history says.** -/
theorem reflects_afterCalls (calls : List PoolCall) : (afterCalls calls).Reflects calls := by
  induction calls using List.reverseRecOn with
  | nil =>
    refine ⟨List.nodup_nil, fun file => iff_of_false List.not_mem_nil not_lastAdded_nil, ?_⟩
    exact List.Pairwise.nil
  | append_singleton calls call ih =>
    rw [afterCalls_concat]
    cases call with
    | add file => exact ih.add
    | remove name => exact ih.remove

end ClassPool

/-! ## The index -/

theorem getElem?_concat_eq_some_iff {α : Type} {xs : List α} {x y : α} {i : Nat} :
    (xs ++ [x])[i]? = some y ↔ xs[i]? = some y ∨ (i = xs.length ∧ x = y) := by
  rw [List.getElem?_append]
  split
  · rename_i hlt
    exact (or_iff_left fun h => Nat.ne_of_lt hlt h.1).symm
  · rename_i hle
    rw [List.getElem?_eq_none (Nat.le_of_not_lt hle), List.getElem?_singleton]
    grind

section

variable {α : Type} {xs : List α} {slot : Nat} {marked : α → Bool}

/-- Changing the only marked member is changing all marked members. -/
theorem set_eq_map_ite (h : ∀ i x, xs[i]? = some x → (marked x = true ↔ i = slot)) (y : α) :
    xs.set slot y = xs.map fun x => if marked x then y else x := by
  induction xs generalizing slot with
  | nil => rfl
  | cons x xs ih =>
    have hhead := h 0 x rfl
    cases slot with
    | zero =>
      have hrest : ∀ x ∈ xs, (if marked x then y else x) = x := fun x hx => by
        obtain ⟨i, hi⟩ := List.mem_iff_getElem?.mp hx
        exact if_neg ((h (i + 1) x hi).not.mpr (Nat.succ_ne_zero i))
      rw [List.set_cons_zero, List.map_cons, if_pos (hhead.mpr rfl), List.map_congr_left hrest,
        List.map_id']
    | succ slot =>
      rw [List.set_cons_succ, List.map_cons, if_neg (hhead.not.mpr (Nat.succ_ne_zero slot).symm),
        ih fun i x hx => (h (i + 1) x hx).trans Nat.succ_inj]

/-- Dropping the only marked member is keeping those that are not marked. -/
theorem eraseIdx_eq_filter (h : ∀ i x, xs[i]? = some x → (marked x = true ↔ i = slot)) :
    xs.eraseIdx slot = xs.filter (!marked ·) := by
  induction xs generalizing slot with
  | nil => rfl
  | cons x xs ih =>
    have hhead := h 0 x rfl
    cases slot with
    | zero =>
      have hrest : ∀ x ∈ xs, (!marked x) = true := fun x hx => by
        obtain ⟨i, hi⟩ := List.mem_iff_getElem?.mp hx
        exact Bool.not_eq_true' _ ▸ Bool.eq_false_iff.mpr
          ((h (i + 1) x hi).not.mpr (Nat.succ_ne_zero i))
      rw [List.eraseIdx_cons_zero, List.filter_cons_of_neg (by simp [hhead.mpr rfl]),
        List.filter_eq_self.mpr hrest]
    | succ slot =>
      have hunmarked := Bool.eq_false_iff.mpr (hhead.not.mpr (Nat.succ_ne_zero slot).symm)
      rw [List.eraseIdx_cons_succ, List.filter_cons_of_pos (by simp [hunmarked]),
        ih fun i x hx => (h (i + 1) x hx).trans Nat.succ_inj]

end

namespace IndexedPool

/-- An index in which a name has a slot exactly if the class in that slot has the name. -/
def Consistent (pool : IndexedPool) : Prop :=
  ∀ name slot, pool.slots.lookup name = some slot ↔ pool.toPool.names[slot]? = some name

/-- A pool after one more call. -/
def after (pool : IndexedPool) : PoolCall → Except Failure IndexedPool
  | .add file => pool.add file
  | .remove name => (·.2) <$> pool.remove name

/-- The pool after all calls, in their order, on a pool without classes. -/
def afterCalls (calls : List PoolCall) : Except Failure IndexedPool := calls.foldlM after empty

variable {pool : IndexedPool} {file : ClassFile} {name : String} {slot : Nat}

/-- Another slot after a removal, and the slot before it. -/
theorem movedUp_eq_iff {removed old place : Nat} (hne : old ≠ removed) :
    movedUp removed old = place ↔ old = if place < removed then place else place + 1 := by
  unfold movedUp
  split <;> split <;> omega

theorem names_withoutSlot :
    (pool.withoutSlot name slot).toPool.names = pool.toPool.names.eraseIdx slot :=
  (List.eraseIdx_map ..).symm

theorem lookup_withoutSlot {other : String} :
    (pool.withoutSlot name slot).slots.lookup other =
      if other == name then none else (pool.slots.lookup other).map (movedUp slot) := by
  rw [withoutSlot, lookup_map_value, lookup_filter_ne]
  split <;> rfl

namespace Consistent

theorem nodup (h : pool.Consistent) : pool.toPool.names.Nodup := by
  refine List.nodup_iff_getElem?_ne_getElem?.mpr fun i j hlt hj heq => ?_
  have hsecond := List.getElem?_eq_getElem hj
  have hfirst := (h _ i).mpr (heq.trans hsecond)
  rw [(h _ j).mpr hsecond] at hfirst
  exact Nat.ne_of_lt hlt (Option.some.inj hfirst).symm

theorem lookup_eq_none_iff (h : pool.Consistent) :
    pool.slots.lookup name = none ↔ name ∉ pool.toPool.names := by
  rw [← Option.not_isSome_iff_eq_none, Option.isSome_iff_exists, List.mem_iff_getElem?]
  exact (exists_congr fun slot => h name slot).not

/-- Only the class in the slot of a name has the name. -/
theorem name_eq_iff (h : pool.Consistent) (hslot : pool.slots.lookup name = some slot) {place : Nat}
    (hplace : pool.classes[place]? = some file) : file.name = name ↔ place = slot := by
  have hnames : pool.toPool.names[place]? = some file.name := by
    rw [ClassPool.names, List.getElem?_map]
    exact congrArg (Option.map _) hplace
  constructor
  · rintro rfl
    exact Option.some.inj (((h _ _).mpr hnames).symm.trans hslot)
  · rintro rfl
    exact Option.some.inj (hnames.symm.trans ((h _ _).mp hslot))

/-- A slot of the index holds the class that it is looked up for. -/
theorem exists_classAt (h : pool.Consistent) (hslot : pool.slots.lookup name = some slot) :
    ∃ file, pool.classAt slot = .ok file ∧ pool.toPool.get? name = some file := by
  have hname := (h name slot).mp hslot
  rw [ClassPool.names, List.getElem?_map, Option.map_eq_some_iff] at hname
  obtain ⟨file, hfile, hname⟩ := hname
  refine ⟨file, ?_, (ClassPool.get?_eq_some_iff h.nodup).mpr ⟨List.mem_of_getElem? hfile, hname⟩⟩
  unfold classAt
  exact hfile ▸ rfl

/-- Looking up by the index is looking for the name. -/
theorem get? (h : pool.Consistent) (name : String) :
    pool.get? name = .ok (pool.toPool.get? name) := by
  cases hslot : pool.slots.lookup name with
  | none =>
    have hmem := h.lookup_eq_none_iff.mp hslot
    simp only [IndexedPool.get?, hslot, ClassPool.get?_eq_none hmem]
  | some slot =>
    obtain ⟨file, hok, hget⟩ := h.exists_classAt hslot
    simp only [IndexedPool.get?, hslot, hok, hget]
    rfl

/-- **Adding a class** keeps the index consistent and is adding the class to the classes. -/
theorem add (h : pool.Consistent) (file : ClassFile) : ∃ after,
    pool.add file = .ok after ∧ after.Consistent ∧ after.toPool = pool.toPool.add file := by
  cases hslot : pool.slots.lookup file.name with
  | none =>
    have hmem := h.lookup_eq_none_iff.mp hslot
    let after : IndexedPool :=
      ⟨pool.classes ++ [file], (file.name, pool.classes.length) :: pool.slots⟩
    have hpool : after.toPool = pool.toPool.add file := (ClassPool.add_of_notMem hmem).symm
    refine ⟨after, by simp only [IndexedPool.add, hslot, after], fun name slot => ?_, hpool⟩
    rw [hpool, ClassPool.names_add_of_notMem hmem, getElem?_concat_eq_some_iff, ← h name slot,
      ClassPool.names, List.length_map, List.lookup_cons]
    by_cases hname : name = file.name
    · simp [hname, hslot, toPool, eq_comm]
    · simp [beq_eq_false_iff_ne.mpr hname, Ne.symm hname]
  | some slot =>
    obtain ⟨old, hok, -⟩ := h.exists_classAt hslot
    have hmem : file.name ∈ pool.toPool.names := List.mem_of_getElem? ((h _ _).mp hslot)
    let after : IndexedPool := ⟨pool.classes.set slot file, pool.slots⟩
    have hpool : after.toPool = pool.toPool.add file := by
      rw [ClassPool.add_of_mem hmem]
      exact congrArg ClassPool.mk (set_eq_map_ite (fun place other hother =>
        beq_iff_eq.trans (h.name_eq_iff hslot hother)) file)
    refine ⟨after, by simp only [IndexedPool.add, hslot, hok]; rfl, fun name slot => ?_, hpool⟩
    rw [hpool, ClassPool.names_add_of_mem hmem]
    exact h name slot

/-- An index stays consistent when a class goes and the slots behind it move up. -/
theorem withoutSlot (h : pool.Consistent) (hslot : pool.slots.lookup name = some slot) :
    (pool.withoutSlot name slot).Consistent := by
  intro other place
  -- the slot of the other name before the removal
  have hbefore : (pool.toPool.names.eraseIdx slot)[place]? = some other ↔
      pool.slots.lookup other = some (if place < slot then place else place + 1) := by
    rw [List.getElem?_eraseIdx]
    split <;> exact (h _ _).symm
  rw [names_withoutSlot, hbefore, lookup_withoutSlot]
  by_cases hother : other = name
  · rw [if_pos (beq_iff_eq.mpr hother), hother, hslot, Option.some_inj]
    refine iff_of_false (Option.some_ne_none place).symm ?_
    split <;> omega
  · rw [if_neg (mt beq_iff_eq.mp hother), Option.map_eq_some_iff]
    constructor
    · rintro ⟨old, hold, hmoved⟩
      have hne : old ≠ slot := by
        rintro rfl
        exact hother (Option.some.inj (((h _ _).mp hold).symm.trans ((h _ _).mp hslot)))
      rw [hold, (movedUp_eq_iff hne).mp hmoved]
    · intro hold
      refine ⟨_, hold, (movedUp_eq_iff ?_).mpr rfl⟩
      split <;> omega

/-- **Removing a class** gives the class with the name, keeps the index consistent and is removing
the class from the classes. -/
theorem remove (h : pool.Consistent) (name : String) : ∃ after,
    pool.remove name = .ok (pool.toPool.get? name, after) ∧ after.Consistent ∧
      after.toPool = pool.toPool.remove name := by
  cases hslot : pool.slots.lookup name with
  | none =>
    have hmem := h.lookup_eq_none_iff.mp hslot
    refine ⟨pool, ?_, h, (ClassPool.remove_of_notMem hmem).symm⟩
    simp only [IndexedPool.remove, hslot, ClassPool.get?_eq_none hmem]
  | some slot =>
    obtain ⟨file, hok, hget⟩ := h.exists_classAt hslot
    have hclasses : (pool.withoutSlot name slot).toPool = pool.toPool.remove name :=
      congrArg ClassPool.mk (eraseIdx_eq_filter fun place other hother =>
        beq_iff_eq.trans (h.name_eq_iff hslot hother))
    refine ⟨pool.withoutSlot name slot, ?_, h.withoutSlot hslot, hclasses⟩
    simp only [IndexedPool.remove, hslot, hok, hget]
    rfl

end Consistent

theorem consistent_empty : empty.Consistent := fun name slot => by
  simp [empty, toPool, ClassPool.names]

/-- **An indexed pool never has a fault**, and holds what the class pool holds. -/
theorem afterCalls_eq_ok (calls : List PoolCall) : ∃ pool, afterCalls calls = .ok pool ∧
    pool.Consistent ∧ pool.toPool = ClassPool.afterCalls calls := by
  induction calls using List.reverseRecOn with
  | nil => exact ⟨empty, rfl, consistent_empty, rfl⟩
  | append_singleton calls call ih =>
    obtain ⟨pool, hpool, hconsistent, heq⟩ := ih
    have hafter : ∃ last, pool.after call = .ok last ∧ last.Consistent ∧
        last.toPool = pool.toPool.after call := by
      cases call with
      | add file => exact hconsistent.add file
      | remove name =>
        obtain ⟨last, hlast, hkept, hsame⟩ := hconsistent.remove name
        exact ⟨last, by rw [after, hlast]; rfl, hkept, hsame⟩
    obtain ⟨last, hlast, hkept, hsame⟩ := hafter
    refine ⟨last, ?_, hkept, ?_⟩
    · rw [afterCalls, List.foldlM_append, ← afterCalls, hpool]
      exact (bind_pure _).trans hlast
    · rw [hsame, heq, ClassPool.afterCalls_concat]

/-- **A pool with an index holds what its history says.** No sequence of calls leads to a fault, and
after it: the names are distinct; looking up a name gives the class that was added last under it, if
it was not removed since; the classes that are gone through are those, in the order of the calls in
which their names have come. The pool is the class pool to which the same calls lead. -/
theorem afterCalls_reflects (calls : List PoolCall) : ∃ pool, afterCalls calls = .ok pool ∧
    (pool.classes.map (·.name)).Nodup ∧
    (∀ name, ∃ found, pool.get? name = .ok found ∧
      ∀ file, found = some file ↔ LastAdded calls name file) ∧
    (∀ file, file ∈ pool.classes ↔ LastAdded calls file.name file) ∧
    (∀ name, name ∈ pool.classes.map (·.name) ↔ ∃ position, EnteredAt calls name position) ∧
    (pool.classes.map (·.name)).Pairwise (fun a b =>
      ∀ i j, EnteredAt calls a i → EnteredAt calls b j → i < j) ∧
    pool.toPool = ClassPool.afterCalls calls := by
  obtain ⟨pool, hpool, hconsistent, hsame⟩ := afterCalls_eq_ok calls
  have hreflects : pool.toPool.Reflects calls := hsame ▸ ClassPool.reflects_afterCalls calls
  refine ⟨pool, hpool, hreflects.nodup, fun name => ?_, hreflects.mem_iff, fun name => ?_,
    hreflects.ordered, hsame⟩
  · exact ⟨_, hconsistent.get? name, fun file => hreflects.get?_eq_some_iff⟩
  · exact hreflects.mem_names_iff.trans exists_enteredAt_iff.symm

end IndexedPool

end JvmTrim
