import JvmTrim.Proofs.Collecting

/-!
# Simplifying a method, all or nothing

A method is simplified in one go: either its body is exchanged for the simplified one and the
constants that this needs are appended to those of its class, or nothing happens to the method and
its class. A body that cannot be simplified is reported with what is wrong with it, and never because
two parts of the library did not keep a contract between them.

Taking back what was appended works because constants are only ever appended, also by a
simplification that fails half-way, and because a constant pool is never shorter than its unusable
first slot.

## Main definitions

* `ConstantPool.Built`: the constant pools that can be built
* `AllOrNothing`: a method that was simplified as a whole or not at all

## Main results

* `optimizeMethod_atomic`: a method is simplified, or everything stays as it was
* `optimizeMethod_without_fault`: no input makes the simplification of a method fault
-/

namespace JvmTrim

/-! ## Constant pools -/

/-- The constant pools that the operations on constant pools lead to from the one without constants.
An operation that fails counts too, with what it appended before. -/
inductive ConstantPool.Built : ConstantPool → Prop where
  | empty : Built .empty
  | add {pool : ConstantPool} (h : Built pool) (constant : Constant) :
      Built ((ConstantPool.add constant).apply pool).2
  | findOrAdd {pool : ConstantPool} (h : Built pool) (constant : Constant) :
      Built ((ConstantPool.findOrAdd constant).apply pool).2
  | utf8Index {pool : ConstantPool} (h : Built pool) (text : String) :
      Built ((ConstantPool.utf8Index text).apply pool).2
  | classIndex {pool : ConstantPool} (h : Built pool) (name : String) :
      Built ((ConstantPool.classIndex name).apply pool).2
  | nameAndTypeIndex {pool : ConstantPool} (h : Built pool) (name descriptor : String) :
      Built ((ConstantPool.nameAndTypeIndex name descriptor).apply pool).2
  | memberRefIndex {pool : ConstantPool} (h : Built pool) (member : MemberRef) :
      Built ((ConstantPool.memberRefIndex member).apply pool).2
  | set {pool changed : ConstantPool} {index : UInt16} {constant : Constant} (h : Built pool)
      (hset : pool.set index constant = .ok changed) : Built changed
  | truncate {pool : ConstantPool} (h : Built pool) (length : Nat) : Built (pool.truncate length)

namespace PoolM

theorem appends_utf8Index (text : String) : Appends (ConstantPool.utf8Index text) :=
  appends_findOrAdd _

theorem appends_classIndex (name : String) : Appends (ConstantPool.classIndex name) :=
  (appends_utf8Index name).bind fun _ => appends_findOrAdd _

theorem appends_nameAndTypeIndex (name descriptor : String) :
    Appends (ConstantPool.nameAndTypeIndex name descriptor) :=
  (appends_utf8Index name).bind fun _ => (appends_utf8Index descriptor).bind fun _ =>
    appends_findOrAdd _

theorem appends_memberRefIndex (member : MemberRef) :
    Appends (ConstantPool.memberRefIndex member) :=
  (appends_classIndex _).bind fun _ => (appends_nameAndTypeIndex _ _).bind fun _ =>
    appends_findOrAdd _

end PoolM

namespace ConstantPool

variable {pool grown : ConstantPool}

theorem Extends.length_le (h : pool.Extends grown) : pool.length ≤ grown.length := by
  by_contra hlonger
  have hlt : grown.length < pool.entries.size := Nat.not_le.mp hlonger
  have hgrown := h.entries _ _ (Array.getElem?_eq_getElem hlt)
  exact absurd (Array.getElem?_eq_some_iff.mp hgrown).1 (Nat.lt_irrefl _)

theorem Extends.exists_appended (h : pool.Extends grown) :
    ∃ appended, grown.entries = pool.entries ++ appended := by
  have hfront : pool.entries.toList <+: grown.entries.toList := by
    refine List.prefix_iff_getElem?.mpr fun index hindex => ?_
    have hold : pool.entries[index]? = some pool.entries.toList[index] := by
      simp [Array.length_toList ▸ hindex]
    simpa using h.entries _ _ hold
  obtain ⟨appended, happended⟩ := hfront
  refine ⟨appended.toArray, ?_⟩
  rw [← Array.toList_inj, Array.toList_append, happended]

/-- **Cutting a pool down to its old length takes back what was appended.** -/
theorem Extends.truncate_eq (h : pool.Extends grown) (hpool : 0 < pool.length) :
    grown.truncate pool.length = pool := by
  obtain ⟨appended, happended⟩ := h.exists_appended
  have hfront : (pool.entries ++ appended).extract 0 pool.entries.size = pool.entries := by
    rw [Array.extract_append_left, Array.extract_size]
  rw [truncate, Nat.max_eq_left hpool, happended]
  exact congrArg ConstantPool.mk hfront

theorem Extends.get_eq (h : pool.Extends grown) {index : UInt16} (hlt : index.toNat < pool.length) :
    grown.get index = pool.get index := by
  have hold : pool.entries[index.toNat]? = some pool.entries[index.toNat] :=
    Array.getElem?_eq_getElem hlt
  rw [get, get, hold, h.entries _ _ hold]

/-- What growing, replacing a constant and cutting down keep holds of every pool that can be built. -/
theorem Built.invariant {P : ConstantPool → Prop} (h : pool.Built) (hempty : P .empty)
    (hextends : ∀ old new, ConstantPool.Extends old new → P old → P new)
    (hset : ∀ old new index constant, ConstantPool.set old index constant = .ok new → P old → P new)
    (htruncate : ∀ old length, P old → P (ConstantPool.truncate old length)) : P pool := by
  have hgrows {α : Type} {change : PoolM α} (happends : change.Appends) {old : ConstantPool}
      (hold : P old) : P (change.apply old).2 :=
    hextends _ _ (happends old).1 hold
  induction h with
  | empty => exact hempty
  | add _ constant ih => exact hgrows (PoolM.appends_add constant) ih
  | findOrAdd _ constant ih => exact hgrows (PoolM.appends_findOrAdd constant) ih
  | utf8Index _ text ih => exact hgrows (PoolM.appends_utf8Index text) ih
  | classIndex _ name ih => exact hgrows (PoolM.appends_classIndex name) ih
  | nameAndTypeIndex _ name descriptor ih =>
    exact hgrows (PoolM.appends_nameAndTypeIndex name descriptor) ih
  | memberRefIndex _ member ih => exact hgrows (PoolM.appends_memberRefIndex member) ih
  | set _ h ih => exact hset _ _ _ _ h ih
  | truncate _ length ih => exact htruncate _ length ih

/-- The first slot is always there. -/
theorem Built.length_pos (h : pool.Built) : 0 < pool.length := by
  refine h.invariant (P := fun pool => 0 < pool.length) (by decide)
    (fun old new hextends hold => ?_) (fun old new index constant hset hold => ?_)
    fun old length hold => ?_
  · exact Nat.lt_of_lt_of_le hold hextends.length_le
  · obtain ⟨_, -, hset⟩ := Except.bind_eq_ok.mp hset
    cases hset
    simpa [length] using hold
  · simp only [ConstantPool.truncate, ConstantPool.length, Array.take, Array.size_extract] at hold ⊢
    omega

end ConstantPool

/-! ## One method -/

/-- A failure that is no fault is passed on as it is. -/
theorem Failure.inMethod_ne_abandoned {failure : Failure} (h : failure.isFault = false)
    {method name : String} {cause : Fault} : failure.inMethod method ≠ .abandoned name cause := by
  cases failure <;> simp_all [isFault, inMethod]

variable (around : Surroundings) (assumptions : Assumptions) (owner : String)

/-- What can come of simplifying a method: it has no body, its body is exchanged, nothing changes, or
it fails. What was appended is taken back in the last two cases. -/
theorem optimizeMethod_cases (pool : ConstantPool) (method : Method) :
    method.code = none ∧
        (optimizeMethod around assumptions owner).apply (pool, method) = (.ok none, pool, method) ∨
      ∃ code result grown, method.code = some code ∧
        (MethodContext.mk around assumptions owner method code).simplify.apply pool =
          (result, grown) ∧
        ((∃ simplified report, result = .ok (some (simplified, report)) ∧
            (optimizeMethod around assumptions owner).apply (pool, method) =
              (.ok (some report), grown, { method with code := some simplified })) ∨
          (result = .ok none ∧ (optimizeMethod around assumptions owner).apply (pool, method) =
            (.ok none, grown.truncate pool.length, method)) ∨
          ∃ failure, result = .error failure ∧
            (optimizeMethod around assumptions owner).apply (pool, method) =
              (.error (failure.inMethod (Settings.methodText owner method.name method.descriptor)),
                grown.truncate pool.length, method)) := by
  obtain ⟨access, name, descriptor, code⟩ := method
  cases code with
  | none => exact .inl ⟨rfl, rfl⟩
  | some code =>
    generalize hsimplify : (MethodContext.mk around assumptions owner
      ⟨access, name, descriptor, some code⟩ code).simplify.apply pool = answer
    obtain ⟨result, grown⟩ := answer
    refine .inr ⟨code, result, grown, rfl, hsimplify, ?_⟩
    rw [optimizeMethod, Change.apply_ofEffect]
    simp only [hsimplify]
    rcases result with failure | _ | ⟨simplified, report⟩
    · exact .inr (.inr ⟨failure, rfl, rfl⟩)
    · exact .inr (.inl ⟨rfl, rfl⟩)
    · exact .inl ⟨simplified, report, rfl, rfl⟩

/-- What all or nothing means for the answer about a method and the constants of its class. -/
structure AllOrNothing (pool : ConstantPool) (method : Method)
    (answer : Except Failure (Option Report) × ConstantPool × Method) : Prop where
  /-- With a report, the method has another body and is the same otherwise, and constants were at most
  appended, so every index that was in use still denotes the same constant. -/
  all : ∀ report, answer.1 = .ok (some report) →
    (∃ code, answer.2.2 = { method with code := some code }) ∧
      (∃ appended, answer.2.1.entries = pool.entries ++ appended) ∧
      ∀ index : UInt16, index.toNat < pool.length → answer.2.1.get index = pool.get index
  /-- With a failure or without a report, the method and the constants are exactly what they were. -/
  nothing : (∀ report, answer.1 ≠ .ok (some report)) → answer.2 = (pool, method)

/-- **A method is simplified, or everything stays as it was.** -/
theorem optimizeMethod_atomic {pool : ConstantPool} (hpool : pool.Built) (method : Method) :
    AllOrNothing pool method
      ((optimizeMethod around assumptions owner).apply (pool, method)) := by
  rcases optimizeMethod_cases around assumptions owner pool method with
    ⟨-, hanswer⟩ | ⟨code, result, grown, -, hsimplify, hcases⟩
  · rw [hanswer]
    exact ⟨nofun, fun _ => rfl⟩
  · have hextends : pool.Extends grown := by
      have happends := (MethodContext.mk around assumptions owner method code).appends_simplify pool
      rw [hsimplify] at happends
      exact happends.1
    have hback := hextends.truncate_eq hpool.length_pos
    rcases hcases with ⟨simplified, report, -, hanswer⟩ | ⟨-, hanswer⟩ | ⟨failure, -, hanswer⟩
    · rw [hanswer]
      refine ⟨fun _ _ => ⟨⟨simplified, rfl⟩, hextends.exists_appended, fun index => ?_⟩, fun h => ?_⟩
      · exact hextends.get_eq
      · exact absurd rfl (h report)
    · rw [hanswer, hback]
      exact ⟨nofun, fun _ => rfl⟩
    · rw [hanswer, hback]
      exact ⟨nofun, fun _ => rfl⟩

/-- A method that returns the sum of two numbers. -/
def fixedSum : Method :=
  ⟨AccessFlags.static, "sum", "()I",
    some ⟨2, 0, [0x11, 0x75, 0x30, 0x11, 0x75, 0x30, 0x60, 0xAC], [], [], []⟩⟩

/-- The constants of its class. -/
def sumPool : ConstantPool := ⟨#[none, some (.utf8 "Sums")]⟩

/-- The sum takes a constant, which comes behind the one that was there. -/
theorem optimizeMethod_atomic_fixedSum :
    let answer := (optimizeMethod ⟨.empty, .standard, .empty⟩ .none "Sums").apply (sumPool, fixedSum)
    sumPool.Built ∧ answer.2.1.entries[2]? = some (some (.integer 60000)) ∧
      AllOrNothing sumPool fixedSum answer := by
  have hsum : ((ConstantPool.utf8Index "Sums").apply .empty).2 = sumPool := by decide +kernel
  have hpool : sumPool.Built := hsum ▸ .utf8Index .empty "Sums"
  refine ⟨hpool, by decide +kernel, ?_⟩
  exact optimizeMethod_atomic ⟨.empty, .standard, .empty⟩ .none "Sums" hpool fixedSum

/-- **No input makes the simplification of a method fault.** Neither evaluating a body nor simplifying
it asks a value for a number of another kind, writes to a set beyond its capacity, looks up what is
out of range, or uses up a bound; so a method is never given up because of such a fault. -/
theorem optimizeMethod_without_fault (pool : ConstantPool) (method : Method) :
    (∀ options code, Faultless (evaluate options pool owner method code)) ∧
      (∀ code, Faultless ((MethodContext.mk around assumptions owner method code).simplify.apply
        pool).1) ∧
      ∀ name cause, ((optimizeMethod around assumptions owner).apply (pool, method)).1 ≠
        .error (.abandoned name cause) := by
  have hsimplify (code : Code) :=
    ((MethodContext.mk around assumptions owner method code).appends_simplify pool).2
  refine ⟨fun options code => (yields_evaluate options pool owner method code).1, hsimplify, ?_⟩
  intro name cause
  rcases optimizeMethod_cases around assumptions owner pool method with
    ⟨-, hanswer⟩ | ⟨code, result, grown, -, hrun, hcases⟩
  · rw [hanswer]
    exact fun h => by cases h
  · rcases hcases with ⟨simplified, report, -, hanswer⟩ | ⟨-, hanswer⟩ | ⟨failure, hfailure, hanswer⟩
    · rw [hanswer]
      exact fun h => by cases h
    · rw [hanswer]
      exact fun h => by cases h
    · have hfault : failure.isFault = false := hsimplify code failure (by rw [hrun, hfailure])
      rw [hanswer]
      intro h
      exact Failure.inMethod_ne_abandoned hfault (Except.error.inj h)

end JvmTrim
