import JvmTrim.Proofs.Pushes
import JvmTrim.Proofs.Simulation

/-!
# Simplifying preserves behaviour

A method body is simplified in three steps: it is decided what happens to its instructions, the
repairs are collected, and they are applied. What is emitted is well formed, so that the simplified
body decodes to it; and the run of that code follows the run of the body.

## Main results

* `Decision.Emits.wellFormed`: the operands of what is emitted fit their opcodes
* `MethodContext.simplify_eq_some`: the steps that a simplified body comes from
* `MethodContext.simplify_preserves`: a simplified body returns or throws as the body does
* `simplify_staleCopy_again`: a simplified body may be simplified further
-/

namespace JvmTrim

/-! ## What is emitted -/

theorem Opcode.layout?_of_subroutine {opcode : Opcode} (h : opcode.operation = .subroutine) :
    opcode.layout? = some .branch ∨ opcode.layout? = some .wideBranch := by
  have hall := of_all (p := fun opcode => opcode.operation != .subroutine ||
    (opcode.layout? = some .branch || opcode.layout? = some .wideBranch)) (by decide +kernel) opcode
  simpa [h] using hall

theorem Decision.eq_popOf_of_mem_inputPops {decision : Decision} {offset count : Nat}
    {pops : List Instruction} {instruction : Instruction}
    (hp : decision.inputPops offset count = .ok pops) (h : instruction ∈ pops) :
    ∃ words, instruction = popOf words := by
  obtain ⟨stack, -, hp⟩ := Except.bind_eq_ok.mp hp
  split at hp
  · cases hp
  · cases hp
    obtain ⟨words, -, heq⟩ := Machine.eq_popOf_of_mem h
    exact ⟨words, heq⟩

/-- **The operands of what is emitted fit their opcodes.** -/
theorem Decision.Emits.wellFormed {decision : Decision} {old new : ConstantPool} {offset : Nat}
    {instruction emitted : Instruction} {isKept : Bool} {code : List Instruction}
    {keeps : Option Nat} (h : decision.Emits old new offset instruction isKept code keeps)
    (hw : instruction.WellFormed) (hmem : emitted ∈ code) : emitted.WellFormed := by
  have hpops {count : Nat} {pops : List Instruction} {emitted : Instruction}
      (hp : decision.inputPops offset count = .ok pops) (hmem : emitted ∈ pops) :
      emitted.WellFormed := by
    obtain ⟨words, rfl⟩ := Decision.eq_popOf_of_mem_inputPops hp hmem
    exact Instruction.wellFormed_popOf words
  have hgoto (displacement : Int32) :
      (Instruction.branch Opcode.goto displacement).WellFormed :=
    Instruction.wellFormed_of_layout .branch Instruction.layout?_goto.1 trivial
  cases h with
  | unreachable => cases hmem
  | keptPop => exact List.mem_singleton.mp hmem ▸ hw
  | shuffle =>
    obtain ⟨move, -, rfl⟩ := List.mem_map.mp hmem
    exact Instruction.wellFormed_ofShuffle move
  | stays => exact List.mem_singleton.mp hmem ▸ hw
  | call _ _ _ hcall _ _ _ hopcode =>
    obtain rfl := List.mem_singleton.mp hmem
    obtain ⟨displacement, hd⟩ := hw.operand_eq_branch (Opcode.layout?_of_subroutine hcall)
    rw [hopcode, hd]
    split
    · exact Instruction.wellFormed_of_layout .wideBranch Instruction.layout?_goto.2.2.1 trivial
    · exact Instruction.wellFormed_of_layout .branch Instruction.layout?_goto.1 trivial
  | discards =>
    rcases List.mem_cons.mp hmem with rfl | hmem
    · exact hw
    · exact List.mem_singleton.mp hmem ▸ Instruction.wellFormed_popOf _
  | keeps => exact List.mem_singleton.mp hmem ▸ hw
  | constant _ _ hp hv =>
    rcases List.mem_append.mp hmem with hmem | hmem
    · exact hpops hp hmem
    · exact List.mem_singleton.mp hmem ▸ Instruction.wellFormed_of_constantPush hv
  | «alias» => exact List.mem_singleton.mp hmem ▸ Instruction.wellFormed_load _ _
  | goto _ _ hp | loop _ _ hp =>
    rcases List.mem_append.mp hmem with hmem | hmem
    · exact hpops hp hmem
    · exact List.mem_singleton.mp hmem ▸ hgoto _
  | drop _ _ hp => exact hpops hp hmem
  | unnecessary _ _ _ hplaceholder hp =>
    rcases List.mem_append.mp hmem with hmem | hmem
    · rcases hp with ⟨-, rfl⟩ | hp
      · cases hmem
      · exact hpops hp hmem
    · rcases hplaceholder with ⟨-, rfl⟩ | ⟨value, push, -, hpush, rfl⟩
      · cases hmem
      · exact List.mem_singleton.mp hmem ▸ Instruction.wellFormed_of_placeholderPush hpush

/-! ## From the body to the simplified body -/

/-- What a simplified body comes from. -/
theorem MethodContext.simplify_eq_some {context : MethodContext} {pool pool' : ConstantPool}
    {simplified : Code} {report : Report}
    (h : context.simplify.apply pool = (.ok (some (simplified, report)), pool')) :
    ∃ decision repair, context.decide pool = .ok decision ∧
      decision.repairs pool = (.ok ((), repair), pool') ∧
      repair.edit.apply context.code pool' = .ok simplified := by
  obtain ⟨_, _, hget, h⟩ := PoolM.runs_bind.mp h
  cases hget
  obtain ⟨decision, _, hdecide, h⟩ := PoolM.runs_bind.mp h
  obtain ⟨hdecision, rfl⟩ := PoolM.runs_lift.mp hdecide
  obtain ⟨⟨edit, report'⟩, _, hrepair, h⟩ := PoolM.runs_bind.mp h
  obtain ⟨⟨_, repair⟩, _, hrepairs, hpure⟩ := PoolM.runs_bind.mp hrepair
  obtain ⟨heq, rfl⟩ := PoolM.runs_pure.mp hpure
  cases heq
  simp only at h
  split at h
  · cases h
  · obtain ⟨_, _, hget', h⟩ := PoolM.runs_bind.mp h
    cases hget'
    obtain ⟨simplified', _, happly, h⟩ := PoolM.runs_bind.mp h
    obtain ⟨hsimplified, rfl⟩ := PoolM.runs_lift.mp happly
    obtain ⟨hsome, rfl⟩ := PoolM.runs_pure.mp h
    split at hsome
    · cases hsome
    · cases hsome
      exact ⟨decision, repair, hdecision, hrepairs, hsimplified⟩

theorem MethodContext.evaluate_of_decide {context : MethodContext} {pool : ConstantPool}
    {decision : Decision} (h : context.decide pool = .ok decision) :
    evaluate context.preciseOptions pool context.owner context.method context.code =
      .ok decision.evaluation := by
  obtain ⟨evaluation, hevaluate, h⟩ := Except.bind_eq_ok.mp h
  obtain ⟨_, -, h⟩ := Except.bind_eq_ok.mp h
  obtain ⟨_, -, h⟩ := Except.bind_eq_ok.mp h
  obtain ⟨_, -, h⟩ := Except.bind_eq_ok.mp h
  cases h
  exact hevaluate

/-- A run that ends has something to run. -/
theorem Machine.ne_nil_of_run {pool : ConstantPool} {code : List UInt8}
    {body : List (Nat × Instruction)} {count : Nat} {state : State} {outcome : Outcome}
    (hbody : decodeAll code = .ok body)
    (hrun : run pool body count state = .error (.finished outcome)) : code ≠ [] := by
  rintro rfl
  obtain rfl : body = [] := by
    refine List.eq_nil_iff_forall_not_mem.mpr fun entry hmem => ?_
    exact absurd (lt_of_decodeAll hbody entry hmem) (Nat.not_lt_zero _)
  cases count with
  | zero => cases hrun
  | succ count => cases hrun

namespace MethodContext.Repairs

variable {context : MethodContext} {pool pool' : ConstantPool} {decision : Decision}
  {sideEffects : IndexSet} {entry : Frame} {original : Reductions} {simple : Evaluation}
  {repair : RepairState} {live : IndexSet} {body : List (Nat × Instruction)}
  (h : context.Repairs pool pool' decision sideEffects entry original simple repair live)

include h

/-- Both runs start with the same arguments. -/
theorem matches_start {descriptor : MethodDescriptor} {arguments : List Cell}
    (hstatic : context.method.isStatic = true) (hassumptions : context.assumptions = .none)
    (hcode : context.code.bytes ≠ [])
    (hdescriptor : MethodDescriptor.parse context.method.descriptor = .ok descriptor)
    (harguments : Passes descriptor.parameters arguments) :
    decision.Matches repair (Machine.start context.code.maxLocals.toNat arguments)
      (Machine.start context.code.maxLocals.toNat arguments).toStore := by
  obtain ⟨hclosed, hlisting, hentry⟩ := closed_of_evaluate h.evaluated
  obtain ⟨locals, hlocals, before, hb, hcovers⟩ := hentry hcode rfl
  obtain ⟨_, _, hsettled⟩ := hclosed.settled _ _ hb
  have hholds : before.Holds (.ofArguments arguments)
      (Machine.start context.code.maxLocals.toNat arguments).toStore :=
    hcovers.holds (entry_sound rfl hassumptions hstatic hdescriptor harguments hlocals)
  have hunkept : decision.unusedWords repair 0 = 0 := by
    refine if_neg fun hkept => ?_
    obtain ⟨first, -, hlt⟩ := Decision.lt_of_keepsFor h.faithful.listing (fun _ hm => hm)
      (h.kept 0 hkept)
    exact absurd hlt (Nat.not_lt_zero _)
  exact ⟨⟨h.presence.marked.entry 0 List.mem_cons_self hsettled.traced, before, _, hb, hholds⟩,
    before, [], [], hb, rfl, hunkept.symm, .nil, rfl, fun _ _ _ _ => rfl⟩

end MethodContext.Repairs

/-- **Simplifying a method body preserves its behaviour.** If a run of the body returns or throws, so
does the run of the simplified body with the same arguments. -/
theorem MethodContext.simplify_preserves {context : MethodContext} {pool pool' : ConstantPool}
    {simplified : Code} {report : Report} {descriptor : MethodDescriptor}
    {body : List (Nat × Instruction)} {arguments : List Cell} {outcome : Outcome} {count : Nat}
    (hstatic : context.method.isStatic = true) (hassumptions : context.assumptions = .none)
    (hconservative : context.around.settings.conservative = true)
    (hdescriptor : MethodDescriptor.parse context.method.descriptor = .ok descriptor)
    (hbody : decodeAll context.code.bytes = .ok body)
    (hfits : ∀ entry ∈ body, entry.2.loadFits pool = true)
    (hpool : pool.length ≤ 65536) (hsize : context.code.bytes.length ≤ UInt32.size)
    (hsimplify : context.simplify.apply pool = (.ok (some (simplified, report)), pool'))
    (hsmall : simplified.size < 2 ^ 31)
    (harguments : Passes descriptor.parameters arguments)
    (hrun : Machine.run pool body count (Machine.start context.code.maxLocals.toNat arguments) =
      .error (.finished outcome)) :
    ∃ body' count', decodeAll simplified.bytes = .ok body' ∧
      Machine.run pool' body' count' (Machine.start simplified.maxLocals.toNat arguments) =
        .error (.finished outcome) := by
  -- the marks and the edit
  obtain ⟨decision, repair, hdecide, hrepairs, happly⟩ := simplify_eq_some hsimplify
  have hlisting := (closed_of_evaluate (evaluate_of_decide hdecide)).2.1
  cases hbody.symm.trans (Listing.ofCode_eq_ok hlisting).1
  obtain ⟨sideEffects, entry, original, simple, hdecided⟩ := decided_of_decide hdecide
    (fun offset instruction hi =>
      hfits (offset, instruction) ((Listing.get?_eq_some_iff hlisting).mp hi)) hsize
  obtain ⟨happended, hrepaired, hkept⟩ := Decision.repaired_of_repairAll hlisting hrepairs
  obtain ⟨live, hlive, -⟩ := hdecided.presence.marked.straddles
  have h : context.Repairs pool pool' decision sideEffects entry original simple repair live :=
    { hdecided with
      ignores := hassumptions ▸ Assumptions.ignoreInitializers_none
      appended := happended
      live := hlive
      repaired := hrepaired
      kept := hkept }
  have hcode : context.code.bytes ≠ [] := Machine.ne_nil_of_run hbody hrun
  -- the new body
  have hwellFormed : ∀ entry ∈ repair.edit.emission decision.evaluation.listing.instructions,
      entry.2.WellFormed := by
    intro entry hentry
    obtain ⟨instruction, hmem, hemitted⟩ := Edit.mem_emission.mp hentry
    obtain ⟨_, _, _, -, -, -, hemits, -⟩ :=
      hrepaired _ _ ((Listing.get?_eq_some_iff hlisting).mpr hmem)
    exact hemits.wellFormed (wellFormed_of_decodeAll hbody (entry.1, instruction) hmem) hemitted
  obtain ⟨body', placed, hbody', hlays⟩ := Edit.lays_of_apply happly hsmall hbody hwellFormed
  obtain ⟨_, _, _, -, -, -, -, hlocals⟩ := Edit.apply_eq_ok happly
  -- the two starts
  obtain ⟨count', hrun'⟩ := h.finishes_of_run hconservative hpool hlays
    (h.matches_start hstatic hassumptions hcode hdescriptor harguments) hrun
  refine ⟨body', count', hbody', ?_⟩
  rw [hlocals]
  rw [show (Machine.start context.code.maxLocals.toNat arguments).offset = 0 from rfl,
    hlays.start] at hrun'
  exact hrun'

/-- A method that divides a constant sum, kept in a variable, by its argument. -/
def share : MethodContext where
  around := ⟨.empty, .standard, .empty⟩
  assumptions := .none
  owner := "Shares"
  method := ⟨AccessFlags.static, "share", "(I)I", none⟩
  code := ⟨2, 2, [0x05, 0x06, 0x60, 0x3C, 0x1B, 0x1A, 0x6C, 0xAC], [], [], []⟩

/-- The instructions of this method. -/
def shareBody : List (Nat × Instruction) :=
  [(0, .simple 0x05), (1, .simple 0x06), (2, .simple 0x60), (3, .simple 0x3C), (4, .simple 0x1B),
    (5, .simple 0x1A), (6, .simple 0x6C), (7, .simple 0xAC)]

/-- The sum is folded and the variable is gone; the quotient is still the same. -/
theorem simplify_preserves_share : ∃ simplified report pool',
    share.simplify.apply ⟨#[]⟩ = (.ok (some (simplified, report)), pool') ∧
      simplified.bytes = [0x08, 0x1A, 0x6C, 0xAC] ∧
      Machine.run ⟨#[]⟩ shareBody 8 (Machine.start 2 [.int 2]) =
        .error (.finished (.returned (some (.int 2)))) ∧
      ∃ body' count', decodeAll simplified.bytes = .ok body' ∧
        Machine.run pool' body' count' (Machine.start simplified.maxLocals.toNat [.int 2]) =
          .error (.finished (.returned (some (.int 2)))) := by
  have hrun : Machine.run ⟨#[]⟩ shareBody 8 (Machine.start 2 [.int 2]) =
      .error (.finished (.returned (some (.int 2)))) := by
    decide +kernel
  have hdescriptor : MethodDescriptor.parse share.method.descriptor =
      .ok ⟨[.int], some .int⟩ := by
    decide +kernel
  have hbody : decodeAll share.code.bytes = .ok shareBody := by decide +kernel
  have hfits : ∀ entry ∈ shareBody, entry.2.loadFits ⟨#[]⟩ = true := by decide +kernel
  obtain ⟨⟨simplified, report⟩, pool', hsimplify, hchecks⟩ := Except.exists_ok_some_of_any
    (x := share.simplify.apply ⟨#[]⟩)
    (p := fun made _ => made.1.bytes == [0x08, 0x1A, 0x6C, 0xAC]) (by decide +kernel)
  have hbytes : simplified.bytes = [0x08, 0x1A, 0x6C, 0xAC] := eq_of_beq hchecks
  refine ⟨simplified, report, pool', hsimplify, hbytes, hrun, ?_⟩
  refine MethodContext.simplify_preserves (by decide) rfl rfl hdescriptor hbody hfits (by decide)
    (by decide) hsimplify ?_ (.int 2 rfl .nil) hrun
  rw [Code.size, hbytes]
  decide

/-- A method that keeps a copy of its argument, counts the argument up for nothing, and returns the
copy. -/
def staleCopy : MethodContext where
  around := ⟨.empty, .standard, .empty⟩
  assumptions := .none
  owner := "Copies"
  method := ⟨AccessFlags.static, "copy", "(I)I", none⟩
  code := ⟨1, 3, [0x1A, 0x3D, 0x84, 0x00, 0x01, 0x1C, 0xAC], [], [], []⟩

/-- **A simplified body may be simplified further.** Without the count the copy is the argument, but
that the count goes is known only after the loads have been reduced. -/
theorem simplify_staleCopy_again : ∃ simplified report pool' again report' pool'',
    staleCopy.simplify.apply .empty = (.ok (some (simplified, report)), pool') ∧
      simplified.bytes = [0x1A, 0x3D, 0x1C, 0xAC] ∧
      { staleCopy with code := simplified }.simplify.apply pool' =
        (.ok (some (again, report')), pool'') ∧
      again.bytes = [0x1A, 0xAC] := by
  obtain ⟨⟨simplified, report⟩, pool', hfirst, hchecks⟩ := Except.exists_ok_some_of_any
    (x := staleCopy.simplify.apply .empty)
    (p := fun first pool' => first.1.bytes == [0x1A, 0x3D, 0x1C, 0xAC] &&
      ({ staleCopy with code := first.1 }.simplify.apply pool').1.toOption.join.any
        fun (again : Code × Report) => again.1.bytes == [0x1A, 0xAC])
    (by decide +kernel)
  obtain ⟨hbytes, hchecks⟩ := Bool.and_eq_true_iff.mp hchecks
  obtain ⟨⟨again, report'⟩, pool'', hsecond, hagain⟩ := Except.exists_ok_some_of_any
    (p := fun (again : Code × Report) _ => again.1.bytes == [0x1A, 0xAC]) hchecks
  exact ⟨simplified, report, pool', again, report', pool'', hfirst, eq_of_beq hbytes, hsecond,
    eq_of_beq hagain⟩

end JvmTrim
