import JvmTrim.Proofs.Editing
import JvmTrim.Proofs.Emission
import JvmTrim.Proofs.Keeping

/-!
# Deciding and collecting without faults

Deciding what happens to a body leaves the constants alone. Collecting the edits may append constants,
and what it appended stays if it fails on the way; it never changes a constant that was there.
Neither of them faults.

## Main definitions

* `Repair.Collects`: a repair that appends constants at most and does not fault
* `Decision.Fits`: a decision with room for every offset

## Main results

* `MethodContext.yields_decide`: deciding does not fault
* `Decision.collects_repairAll`: collecting the edits appends constants at most and does not fault
* `MethodContext.appends_simplify`: so does simplifying the body
-/

namespace JvmTrim

/-! ## Deciding -/

/-- Whether a decision has room for every offset of the body. -/
structure Decision.Fits (decision : Decision) : Prop where
  sized : decision.evaluation.Sized
  read : decision.evaluation.listing.Read
  listed : ∀ entry ∈ decision.evaluation.instructions, entry.1 < decision.evaluation.size
  reductions : decision.reductions.size = decision.evaluation.size

theorem Surroundings.faultless_hasSideEffects (around : Surroundings) (owner : String)
    (pool : ConstantPool) (evaluation : Evaluation) (offset : Nat) (instruction : Instruction) :
    Faultless (around.hasSideEffects owner pool evaluation offset instruction) := by
  unfold hasSideEffects
  cases instruction.operation
  case invoke mode =>
    cases mode
    case dynamic => exact .ok _
    all_goals exact (instruction.ordinary_member pool).faultless.bind fun _ _ => .ok _
  case getField static =>
    cases static
    · exact .ok _
    · exact (instruction.ordinary_member pool).faultless.bind fun _ _ => .ok _
  case newObject =>
    exact (Faultless.orDefect _ _).bind fun index _ =>
      (pool.ordinary_className index).faultless.bind fun _ _ => .ok _
  all_goals exact .ok _

theorem yields_reductions (options : SimplifyOptions) {evaluation : Evaluation}
    (sideEffects : IndexSet) (hsized : evaluation.Sized)
    (hlisted : ∀ entry ∈ evaluation.instructions, entry.1 < evaluation.size) :
    Yields (reductions options evaluation sideEffects) fun found =>
      found.size = evaluation.size := by
  refine .foldlM (fun found (offset, instruction) hentry hfound => ?_) (by simp)
  have hlt := hlisted _ hentry
  have hreduce : Faultless (reduce? options evaluation offset instruction) := by
    have hbranch : Faultless (reduceBranch? evaluation offset) :=
      (hsized.faultless_targets hlt).bind fun _ _ => .ok _
    unfold reduce?
    split
    · exact .ite (fun _ => hbranch) fun _ => .ok _
    · exact .ite (fun _ => hbranch) fun _ => .ok _
    · simp only
      split
      · exact .ok _
      · exact .ok _
    · exact .ok _
  refine .ite (fun _ => ?_) fun _ => .pure hfound
  refine (hreduce.yields fun _ _ => trivial).bind fun reduction _ => ?_
  refine ((Reductions.faultless_at (hfound ▸ hlt)).yields fun _ _ => trivial).bind fun _ _ => ?_
  exact .pure (by simpa using hfound)

namespace MethodContext

variable (context : MethodContext) (pool : ConstantPool)

theorem faultless_sideEffects {evaluation : Evaluation}
    (hlisted : ∀ entry ∈ evaluation.instructions, entry.1 < evaluation.size) :
    Faultless (context.sideEffects pool evaluation) := by
  suffices h : Yields (context.sideEffects pool evaluation) fun found =>
      found.capacity = evaluation.size from h.1
  refine .foldlM (fun found (offset, instruction) hentry hfound => ?_)
    (IndexSet.capacity_ofCapacity _)
  refine .ite (fun _ => ?_) fun _ => .pure hfound
  refine ((context.around.faultless_hasSideEffects _ _ _ _ _).yields fun _ _ => trivial).bind
    fun effects _ => .ite (fun _ => ?_) fun _ => .pure hfound
  have hadd := IndexSet.yields_add (hfound ▸ hlisted _ hentry)
  exact hadd.mono fun _ hadded => hadded.1.trans hfound

/-- **Deciding what happens to a body does not fault.** -/
theorem yields_decide : Yields (context.decide pool) Decision.Fits := by
  have hevaluate := yields_evaluate
    ⟨context.assumptions, .precise, none, context.around.settings.maxVisits⟩ pool context.owner
    context.method context.code
  refine (hevaluate.and fun _ => id).bind fun evaluation ⟨hsized, hevaluation⟩ => ?_
  obtain ⟨-, hlisting, -⟩ := closed_of_evaluate hevaluation
  have hread := Listing.read_of_ofCode hlisting
  have hlisted : ∀ entry ∈ evaluation.instructions, entry.1 < evaluation.size := by
    intro entry he
    have hget := (Listing.get?_eq_some_iff hlisting).mpr he
    exact hread.lt_size entry.1 (Option.isSome_of_eq_some hget)
  refine ((context.faultless_sideEffects pool hlisted).yields fun _ _ => trivial).bind
    fun sideEffects _ => ?_
  refine (yields_reductions _ sideEffects hsized hlisted).bind fun reductions hreductions => ?_
  exact (Subject.yields_mark (Subject.bounded_of_evaluate hevaluation) hreductions).bind
    fun (marks, final) hfinal => .pure ⟨hsized, hread, hlisted, hfinal⟩

end MethodContext

/-! ## Collecting edits -/

/-- Whether a change of a constant pool appends to it at most, also where it fails, and does not
fault. -/
def PoolM.Appends {α : Type} (change : PoolM α) : Prop :=
  ∀ pool, pool.Extends (change.apply pool).2 ∧ Faultless (change.apply pool).1

/-- Whether a repair appends constants at most, also where it fails, does not fault, and keeps the
room for `size` offsets. -/
def Repair.Collects {α : Type} (size : Nat) (repair : Repair α) : Prop :=
  ∀ state, state.keptPops.capacity = size → ∀ pool,
    pool.Extends ((repair.run state).apply pool).2 ∧
      Yields ((repair.run state).apply pool).1 fun result => result.2.keptPops.capacity = size

namespace Repair

namespace Collects

variable {α β : Type} {size : Nat}

theorem pure (a : α) : Collects size (Pure.pure a) := fun _ hstate pool => ⟨.refl pool, .ok hstate⟩

theorem bind {x : Repair α} {f : α → Repair β} (hx : Collects size x)
    (hf : ∀ a, Collects size (f a)) : Collects size (x >>= f) := by
  intro state hstate pool
  obtain ⟨hextends, hresult⟩ := hx state hstate pool
  have happly : ((x >>= f).run state).apply pool = match (x.run state).apply pool with
      | (.ok (a, middle), grown) => ((f a).run middle).apply grown
      | (.error failure, grown) => (.error failure, grown) := by
    rw [StateT.run_bind, Change.apply_bind]
    split <;> simp_all
  rw [happly]
  rcases hrun : (x.run state).apply pool with ⟨failure | ⟨a, middle⟩, grown⟩
  · rw [hrun] at hextends hresult
    exact ⟨hextends, .error (hresult.1 failure rfl)⟩
  · rw [hrun] at hextends hresult
    obtain ⟨hgrown, hlast⟩ := hf a middle (hresult.2 _ rfl) grown
    exact ⟨hextends.trans hgrown, hlast⟩

theorem lift {x : Except Failure α} (h : Faultless x) : Collects size (liftM x) := by
  intro state hstate pool
  cases x with
  | error failure => exact ⟨.refl pool, .error (h failure rfl)⟩
  | ok a => exact ⟨.refl pool, .ok hstate⟩

theorem throw {failure : Failure} (h : failure.isFault = false) :
    Collects size (MonadExcept.throw failure : Repair α) := fun _ _ pool => ⟨.refl pool, .error h⟩

theorem bind_lift {x : Except Failure α} {f : α → Repair β} (h : Faultless x)
    (hf : ∀ a, Collects size (f a)) : Collects size (liftM x >>= f) := (lift h).bind hf

/-- What is known of a result that was found can be made use of. -/
theorem bind_lift_of_ok {x : Except Failure α} {f : α → Repair β} (h : Faultless x)
    (hf : ∀ a, x = .ok a → Collects size (f a)) : Collects size (liftM x >>= f) := by
  cases x with
  | error failure => exact fun _ _ pool => ⟨.refl pool, .error (h failure rfl)⟩
  | ok a => exact hf a rfl

theorem map_lift {x : Except Failure α} (h : Faultless x) (f : α → β) :
    Collects size (f <$> (liftM x : Repair α)) := by
  cases x with
  | error failure => exact fun _ _ pool => ⟨.refl pool, .error (h failure rfl)⟩
  | ok a => exact fun _ hstate pool => ⟨.refl pool, .ok hstate⟩

theorem liftPool {x : PoolM α} (h : x.Appends) : Collects size (liftM x) := by
  intro state hstate pool
  obtain ⟨hextends, hfaultless⟩ := h pool
  have happly : ((liftM x : Repair α).run state).apply pool = match x.apply pool with
      | (.ok a, grown) => (.ok (a, state), grown)
      | (.error failure, grown) => (.error failure, grown) := by
    rw [show ((liftM x : Repair α).run state) = x >>= fun a => Pure.pure (a, state) from rfl,
      Change.apply_bind]
    split <;> simp_all [Change.apply]
    rfl
  rw [happly]
  rcases hrun : x.apply pool with ⟨failure | a, grown⟩
  · rw [hrun] at hextends hfaultless
    exact ⟨hextends, .error (hfaultless failure rfl)⟩
  · rw [hrun] at hextends
    exact ⟨hextends, .ok hstate⟩

theorem bind_get {f : RepairState → Repair β}
    (hf : ∀ state, state.keptPops.capacity = size → Collects size (f state)) :
    Collects size (get >>= f) := fun state hstate pool => hf state hstate state hstate pool

theorem bind_getPool {f : ConstantPool → Repair β} (hf : ∀ pool, Collects size (f pool)) :
    Collects size (getThe ConstantPool >>= f) := fun state hstate pool => hf pool state hstate pool

theorem ite {p : Prop} [Decidable p] {x y : Repair α} (hx : Collects size x)
    (hy : Collects size y) : Collects size (if p then x else y) := by
  split
  · exact hx
  · exact hy

theorem forM {f : β → Repair Unit} {list : List β} (h : ∀ b ∈ list, Collects size (f b)) :
    Collects size (list.forM f) := by
  induction list with
  | nil => exact pure ()
  | cons head tail ih =>
    exact (h head List.mem_cons_self).bind fun _ => ih fun b hb => h b (List.mem_cons_of_mem _ hb)

end Collects

variable {size : Nat}

theorem collects_edit (change : Edit → Edit) : Collects size (edit change) :=
  fun _ hstate pool => ⟨.refl pool, .ok hstate⟩

theorem collects_count (change : Report → Report) : Collects size (count change) :=
  fun _ hstate pool => ⟨.refl pool, .ok hstate⟩

theorem collects_replace (offset : Nat) (instruction : Instruction)
    (replacement : List Instruction) : Collects size (replace offset instruction replacement) :=
  .ite (.pure ()) (collects_edit _)

end Repair

namespace PoolM

variable {α β : Type}

theorem appends_pure (a : α) : Appends (pure a) := fun pool => ⟨.refl pool, .ok _⟩

theorem appends_throw {failure : Failure} (h : failure.isFault = false) :
    Appends (throw failure : PoolM α) := fun pool => ⟨.refl pool, .error h⟩

theorem Appends.bind {x : PoolM α} {f : α → PoolM β} (hx : x.Appends) (hf : ∀ a, (f a).Appends) :
    (x >>= f).Appends := by
  intro pool
  obtain ⟨hextends, hfaultless⟩ := hx pool
  rw [Change.apply_bind]
  rcases hrun : x.apply pool with ⟨failure | a, grown⟩
  · rw [hrun] at hextends hfaultless
    exact ⟨hextends, .error (hfaultless failure rfl)⟩
  · rw [hrun] at hextends
    obtain ⟨hgrown, hlast⟩ := hf a grown
    exact ⟨hextends.trans hgrown, hlast⟩

theorem appends_lift {x : Except Failure α} (h : Faultless x) : Appends (liftM x) := by
  intro pool
  cases x with
  | error failure => exact ⟨.refl pool, .error (h failure rfl)⟩
  | ok a => exact ⟨.refl pool, .ok a⟩

theorem appends_get : Appends (getThe ConstantPool) := fun pool => ⟨.refl pool, .ok _⟩

/-- A constant is appended at the end, or there is no room for it. -/
theorem appends_add (constant : Constant) : Appends (ConstantPool.add constant) := by
  intro pool
  have happly : (ConstantPool.add constant).apply pool =
      if pool.length + constant.slots > 65535 then (.error .poolOverflow, pool)
      else (.ok (UInt16.ofNat pool.length), pool.append constant) := rfl
  rw [happly]
  split
  · exact ⟨.refl pool, .error rfl⟩
  · rename_i hroom
    exact ⟨Decision.extends_append (Nat.not_lt.mp hroom), .ok _⟩

theorem appends_findOrAdd (constant : Constant) : Appends (ConstantPool.findOrAdd constant) := by
  refine appends_get.bind fun pool => ?_
  split
  · exact appends_pure _
  · exact appends_add constant

theorem appends_constantPush (value : Value) : Appends value.constantPush := by
  unfold Value.constantPush
  split
  · exact appends_pure _
  · split
    · exact (appends_findOrAdd _).bind fun _ => appends_pure _
    · exact appends_throw rfl

end PoolM

namespace Decision

open Repair

variable {decision : Decision}

theorem faultless_recorded (stack : Option Stack) (offset : Nat) :
    Faultless (recorded stack offset) := .orDefect _ _

theorem faultless_inputPops (offset count : Nat) : Faultless (decision.inputPops offset count) := by
  exact (faultless_recorded _ _).bind fun stack _ => .check (.ok _)

theorem faultless_presentOutput (offset pushes : Nat) :
    Faultless (decision.presentOutput offset pushes) := by
  refine .ite (fun _ => .ok _) fun _ => (faultless_recorded _ _).bind fun after _ => ?_
  exact .check (.ite (fun _ => .ok _) fun _ => .ok _)

variable {size : Nat} (offset : Nat) (instruction : Instruction)

theorem collects_popInputs (count : Nat) : Collects size (decision.popInputs offset count) :=
  .bind_lift (faultless_inputPops offset count) fun _ => (collects_count _).bind fun _ => .pure _

theorem collects_repairCall : Collects size (decision.repairCall offset instruction) := by
  refine .bind_lift (instruction.ordinary_branchTargets offset).faultless fun targets =>
    .bind_lift (.orDefect _ _) fun target => .ite (.bind (.throw rfl) fun _ => ?_) ?_
  all_goals exact collects_edit _

/-- A pop that stays is an instruction of the body, so there is room for it. -/
theorem collects_discardOutput (h : decision.Fits) (pushes : Nat) :
    Collects decision.evaluation.size (decision.discardOutput offset pushes) := by
  unfold discardOutput
  split
  · rename_i next hnext
    obtain ⟨-, -, pop, -, -, hpop, -⟩ := discardingPop?_eq_some hnext
    have hlt : next < decision.evaluation.size :=
      h.read.lt_size next (Option.isSome_of_eq_some hpop)
    refine .bind_get fun state hstate => ?_
    have hadd := IndexSet.yields_add (hstate ▸ hlt)
    refine .bind_lift_of_ok hadd.1 fun added h _ _ pool => ?_
    exact ⟨.refl pool, .ok ((hadd.2 added h).1.trans hstate)⟩
  · exact (collects_edit _).bind fun _ => collects_count _

theorem collects_countSelfJump : Collects size (countSelfJump offset instruction) :=
  .ite (.bind_lift (instruction.ordinary_branchTargets offset).faultless fun _ =>
    .ite (collects_count _) (.pure ())) (.pure ())

theorem collects_repairUnreduced (h : decision.Fits) (effect : StackEffect) :
    Collects decision.evaluation.size (decision.repairUnreduced offset instruction effect) := by
  have hlast : Collects decision.evaluation.size (countSelfJump offset instruction) :=
    collects_countSelfJump offset instruction
  refine .bind_lift (faultless_presentOutput offset _) fun output => ?_
  refine .ite ?_ (.ite ?_ ?_)
  · exact (collects_repairCall offset instruction).bind fun _ => hlast
  · exact (collects_discardOutput offset h _).bind fun _ => hlast
  · exact hlast

theorem collects_repairNecessary (h : decision.Fits) (reduction : Option Reduction) :
    Collects decision.evaluation.size
      (decision.repairNecessary offset instruction reduction) := by
  refine .bind_getPool fun pool =>
    .bind_lift (instruction.ordinary_stackEffect pool).faultless fun effect => ?_
  split
  · exact collects_repairUnreduced offset instruction h effect
  · exact (collects_popInputs offset _).bind fun _ =>
      (Collects.liftPool (PoolM.appends_constantPush _)).bind fun _ =>
        (collects_replace _ _ _).bind fun _ => collects_count _
  · exact .bind_lift (.orDefect _ _) fun _ => (collects_edit _).bind fun _ => collects_count _
  · have hdisplacement (target : Nat) : Faultless (displacementTo offset target) :=
      .ite (fun _ => .ok _) fun _ => .error rfl
    exact (collects_popInputs offset _).bind fun _ =>
      .bind_lift (hdisplacement _) fun _ => collects_edit _
  · exact (collects_popInputs offset _).bind fun _ =>
      (collects_replace _ _ _).bind fun _ => collects_count _
  · exact (collects_popInputs offset _).bind fun _ =>
      (collects_edit _).bind fun _ => collects_count _

theorem collects_replaceUnnecessary (operands : Nat) (placeholder : Option Instruction) :
    Collects size (decision.replaceUnnecessary offset instruction operands placeholder) := by
  refine .ite (.pure ()) ((collects_popInputs offset _).bind fun pops => .ite ?_ ?_)
  · exact (collects_count _).bind fun _ => (collects_edit _).bind fun _ => collects_count _
  · exact (collects_edit _).bind fun _ => collects_count _

theorem collects_repairUnnecessary :
    Collects size (decision.repairUnnecessary offset instruction) := by
  refine .bind_getPool fun pool =>
    .bind_lift (instruction.ordinary_stackEffect pool).faultless fun effect => ?_
  refine .bind_lift (faultless_presentOutput offset _) fun output => ?_
  have hrest (placeholder : Option Instruction) : Collects size
      (decision.replaceUnnecessary offset instruction effect.pops placeholder) :=
    collects_replaceUnnecessary offset instruction effect.pops placeholder
  cases output with
  | none => exact (Collects.pure _).bind fun _ => hrest _
  | some value =>
    have hplaceholder : Faultless (value.placeholderPush offset) :=
      (Faultless.orDefect _ _).bind fun _ _ => .ok _
    exact (Collects.map_lift hplaceholder some).bind fun _ => hrest _

theorem collects_repairShuffle :
    Collects size (decision.repairShuffle offset instruction) := by
  refine .bind_get fun state _ => .ite (.pure ()) ?_
  refine .bind_lift (faultless_recorded _ _) fun before =>
    .bind_lift (decision.marks.faultless_shuffleWords _ _ _) fun (inputs, outputs) =>
      .bind_lift (.orFail rfl _) fun plan => .ite ?_ (collects_replace _ _ _)
  exact (collects_count _).bind fun _ => collects_replace _ _ _

theorem collects_repairAt (h : decision.Fits) (hlt : offset < decision.evaluation.size) :
    Collects decision.evaluation.size (decision.repairAt offset instruction) := by
  refine .ite ((collects_edit _).bind fun _ => collects_count _) ?_
  refine .bind_lift (Reductions.faultless_at (h.reductions ▸ hlt)) fun reduction => ?_
  have hrest : Collects decision.evaluation.size
      (decision.repairReached offset instruction reduction) :=
    .ite (collects_repairShuffle offset instruction)
      (.ite (collects_repairNecessary offset instruction h reduction)
        (collects_repairUnnecessary offset instruction))
  exact .ite ((collects_count _).bind fun _ => hrest) hrest

/-- **Collecting the edits of a body appends constants at most and does not fault.** -/
theorem collects_repairAll (h : decision.Fits) :
    Collects decision.evaluation.size decision.repairAll := by
  refine (Collects.forM fun (offset, instruction) hentry => ?_).bind fun _ =>
    .forM fun (live, index) _ => .ite (.pure ()) (collects_edit _)
  exact collects_repairAt offset instruction h (h.listed _ hentry)

theorem appends_repair (h : decision.Fits) : decision.repair.Appends := by
  have hstart : (IndexSet.ofCapacity decision.evaluation.size).capacity =
      decision.evaluation.size := IndexSet.capacity_ofCapacity _
  refine PoolM.Appends.bind (fun pool => ?_) fun _ => PoolM.appends_pure _
  obtain ⟨hextends, hresult⟩ := collects_repairAll h ⟨Edit.ofSize _, {}, _⟩ hstart pool
  exact ⟨hextends, hresult.1⟩

end Decision

/-- **Simplifying a body appends constants at most**, also where it fails, **and does not fault.** -/
theorem MethodContext.appends_simplify (context : MethodContext) : context.simplify.Appends := by
  refine PoolM.appends_get.bind fun pool => ?_
  have hdecide := context.yields_decide pool
  cases hdecision : context.decide pool with
  | error failure =>
    exact fun pool => ⟨.refl pool, .error (hdecide.1 failure hdecision)⟩
  | ok decision =>
    refine (Decision.appends_repair (hdecide.2 decision hdecision)).bind fun (edit, report) => ?_
    simp only
    split
    · exact PoolM.appends_pure _
    · exact PoolM.appends_get.bind fun pool =>
        (PoolM.appends_lift (edit.faultless_apply context.code pool)).bind fun _ =>
          PoolM.appends_pure _

end JvmTrim
