import JvmTrim.Proofs.Retention

/-!
# Which handlers stay live

Marking starts with all handlers that are reached, and it is repeated with those of them that protect
a necessary instruction until none is left out any more. A handler that was left out never comes
back. That matters because the necessary instructions do not become fewer from round to round: a loop
that could be left through a handler is closed once the handler is gone, and is then kept together
with whatever the branches inside it read. So a handler is live at the end if it protects a necessary
instruction in every round, and it may be dead although it protects one in the last round.

## Main definitions

* `Subject.rounds`: the marks of all rounds

## Main results

* `Subject.liveHandlers_of_mark`: which handlers are live at the end
* `liveHandlers_guardedWait`: a dead handler that protects necessary instructions
-/

namespace JvmTrim

namespace Subject

variable {subject : Subject} {original reduced final : Reductions} {marks : Marks}
  {live : List Bool} {bound index : Nat} {handler : Handler}

/-- The marks of the rounds that start with given live handlers, in their order. -/
def roundsFrom (subject : Subject) (reductions : Reductions) : Nat → List Bool → List Marks
  | bound, live =>
    match subject.markWith reductions live with
    | .error _ => []
    | .ok (marks, _) =>
      if subject.stillLive marks = live then [marks]
      else
        match bound with
        | 0 => [marks]
        | bound + 1 => marks :: roundsFrom subject reductions bound (subject.stillLive marks)

/-- The marks of all rounds. -/
def rounds (subject : Subject) (reductions : Reductions) : List Marks :=
  subject.roundsFrom reductions subject.code.handlers.length
    (subject.code.handlers.map fun handler => subject.evaluation.isTraced handler.target)

/-- A round does not change the live handlers. -/
theorem liveHandlers_of_markWith (h : subject.markWith original live = .ok (marks, reduced)) :
    marks.liveHandlers = live := by
  obtain ⟨unmarked, hunmarked, h⟩ := Except.bind_eq_ok.mp h
  obtain ⟨simple, -, h⟩ := Except.bind_eq_ok.mp h
  obtain ⟨roots, -, h⟩ := Except.bind_eq_ok.mp h
  obtain ⟨-, -, -, hkept, hnone⟩ := unmarked_spec hunmarked
  have hvoid {m : Mark} {p : Prop} (hm : unmarked.has m = true) : p := by
    rw [hnone m] at hm
    cases hm
  obtain ⟨hgrows, -⟩ := saturate_spec h (fun a b ha => hvoid ha) (fun _ => .inl rfl)
    (fun o ho => absurd rfl ho)
  exact hgrows.liveHandlers.trans hkept

/-- What one more round leaves of the live handlers. -/
theorem stillLive_of_markWith (h : subject.markWith original live = .ok (marks, reduced))
    (hhandler : subject.code.handlers[index]? = some handler) :
    (subject.stillLive marks)[index]? = some true ↔
      live[index]? = some true ∧ marks.Protects handler := by
  rw [getElem?_stillLive hhandler, liveHandlers_of_markWith h]

theorem roundsFrom_of_settled (h : subject.markWith original live = .ok (marks, reduced))
    (hsettled : subject.stillLive marks = live) :
    subject.roundsFrom original bound live = [marks] := by
  rw [roundsFrom, h]
  exact if_pos hsettled

theorem roundsFrom_succ (h : subject.markWith original live = .ok (marks, reduced))
    (hfewer : subject.stillLive marks ≠ live) :
    subject.roundsFrom original (bound + 1) live =
      marks :: subject.roundsFrom original bound (subject.stillLive marks) := by
  rw [roundsFrom, h]
  exact if_neg hfewer

/-- The last round gives the marks of the body. -/
theorem mem_rounds (h : subject.mark original = .ok (marks, final)) :
    marks ∈ subject.rounds original := by
  refine markFrom_induction (motive := fun bound live => marks ∈ subject.roundsFrom original bound live)
    ?_ ?_ h
  · intro bound live reduced hwith hsettled _
    rw [roundsFrom_of_settled hwith hsettled]
    exact List.mem_singleton_self _
  · intro bound live round reduced hwith hfewer ih
    rw [roundsFrom_succ hwith hfewer]
    exact List.mem_cons_of_mem _ ih

/-- **A handler is live at the end** if it is reached and protects a necessary instruction in every
round. -/
theorem liveHandlers_eq_true (h : subject.mark original = .ok (marks, final))
    (hhandler : subject.code.handlers[index]? = some handler) :
    marks.liveHandlers[index]? = some true ↔ subject.evaluation.isTraced handler.target = true ∧
      ∀ round ∈ subject.rounds original, round.Protects handler := by
  have hlive : marks.liveHandlers[index]? = some true ↔
      (subject.code.handlers.map fun handler =>
        subject.evaluation.isTraced handler.target)[index]? = some true ∧
      ∀ round ∈ subject.rounds original, round.Protects handler := by
    refine markFrom_induction (motive := fun bound live => marks.liveHandlers[index]? = some true ↔
      live[index]? = some true ∧ ∀ round ∈ subject.roundsFrom original bound live,
        round.Protects handler) ?_ ?_ h
    · intro bound live reduced hwith hsettled _
      have hstill := stillLive_of_markWith hwith hhandler
      rw [hsettled] at hstill
      rw [roundsFrom_of_settled hwith hsettled, liveHandlers_of_markWith hwith,
        List.forall_mem_singleton, ← hstill]
    · intro bound live round reduced hwith hfewer ih
      rw [roundsFrom_succ hwith hfewer, List.forall_mem_cons, ih,
        stillLive_of_markWith hwith hhandler, and_assoc]
  rw [hlive, List.getElem?_map, hhandler, Option.map_some, Option.some.injEq]

/-- **Which handlers are live at the end.** A handler that is reached is live if it protects a
necessary instruction in every round, and then it does so in the last one. The converse needs that
the last round makes nothing in its range necessary that an earlier round left out. -/
theorem liveHandlers_of_mark (h : subject.mark original = .ok (marks, final))
    (hhandler : subject.code.handlers[index]? = some handler)
    (htraced : subject.evaluation.isTraced handler.target = true) :
    (marks.liveHandlers[index]? = some true ↔
        ∀ round ∈ subject.rounds original, round.Protects handler) ∧
      (marks.liveHandlers[index]? = some true → marks.Protects handler) ∧
      ((∀ round ∈ subject.rounds original, ∀ offset, handler.start ≤ offset →
          offset < handler.stop → marks.necessary.contains offset = true →
          round.necessary.contains offset = true) →
        (marks.liveHandlers[index]? = some true ↔ marks.Protects handler)) := by
  have hlive : marks.liveHandlers[index]? = some true ↔
      ∀ round ∈ subject.rounds original, round.Protects handler := by
    rw [liveHandlers_eq_true h hhandler, htraced, eq_self_iff_true, true_and]
  have hprotects : marks.liveHandlers[index]? = some true → marks.Protects handler :=
    fun hall => hlive.mp hall marks (mem_rounds h)
  refine ⟨hlive, hprotects, fun hkept => ⟨hprotects, ?_⟩⟩
  rintro ⟨offset, hge, hlt, hn⟩
  exact hlive.mpr fun round hround => ⟨offset, hge, hlt, hkept round hround offset hge hlt hn⟩

end Subject

/-- A static method with a body that calls another method, in a program that assumes what its settings
say. -/
def guarded (settings : Settings) (descriptor : String) (bytes : List UInt8)
    (handlers : List Handler) : MethodContext where
  around := ⟨.empty, settings, .empty⟩
  assumptions := Seeds.empty.assumptions
  owner := "a/B"
  method := ⟨AccessFlags.static, "m", descriptor, none⟩
  code := ⟨2, 1, bytes, handlers, [], []⟩

/-- The constants of its class. -/
def guardedPool : ConstantPool :=
  ⟨#[none, some (.utf8 "a/A"), some (.class 1), some (.utf8 "p"), some (.utf8 "()I"),
    some (.nameAndType 3 4), some (.methodref 2 5)]⟩

/-- A call whose result is dropped, with a handler for the call and another one for the rest. -/
def guardedCall : MethodContext :=
  guarded .standard "()V" [0xB8, 0, 6, 0x57, 0xB1, 0x57, 0xB1] [⟨0, 3, 5, 0⟩, ⟨3, 4, 5, 0⟩]

/-- The handler of a necessary call stays; that of the rest does not. -/
theorem liveHandlers_guardedCall : ∃ decision,
    guardedCall.decide guardedPool = .ok decision ∧
      decision.marks.liveHandlers = [true, false] ∧ decision.marks.Protects ⟨0, 3, 5, 0⟩ := by
  obtain ⟨decision, hdecide, hchecks⟩ := Except.exists_ok_of_any
    (by decide +kernel : (guardedCall.decide guardedPool).toOption.any (fun decision =>
      decide (decision.marks.liveHandlers = [true, false]) && decision.evaluation.isTraced 5) = true)
  simp only [Bool.and_eq_true, decide_eq_true_eq] at hchecks
  obtain ⟨hlive, htraced⟩ := hchecks
  obtain ⟨sideEffects, original, -, -, -, hmark⟩ := MethodContext.exists_of_decide hdecide
  have hfirst : (guardedCall.subject guardedPool decision.evaluation
      sideEffects).code.handlers[0]? = some ⟨0, 3, 5, 0⟩ := rfl
  obtain ⟨-, hprotects, -⟩ := Subject.liveHandlers_of_mark hmark hfirst htraced
  exact ⟨decision, hdecide, hlive, hprotects (by rw [hlive]; rfl)⟩

/-- A method that never ends if a call without side effects gives anything but zero; a handler covers
the call and the loop. -/
def guardedWait : MethodContext :=
  guarded (Settings.standard.assumePure "a/A" "p" "()I") "(La/A;)I"
    [0x2A, 0xB6, 0, 6, 0x99, 0, 7, 0x00, 0xA7, 0xFF, 0xFF, 0x03, 0xAC, 0x57, 0x04, 0xAC]
    [⟨0, 11, 13, 0⟩]

/-- **A dead handler may protect necessary instructions:** the loop could be left through the handler
alone, so the first round keeps nothing in its range, and the next round keeps the loop, the branch
that leads into it and the call that the branch depends on. -/
theorem liveHandlers_guardedWait : ∃ decision,
    guardedWait.decide guardedPool = .ok decision ∧
      guardedWait.code.handlers = [⟨0, 11, 13, 0⟩] ∧ decision.evaluation.isTraced 13 = true ∧
      decision.marks.liveHandlers = [false] ∧ decision.marks.Protects ⟨0, 11, 13, 0⟩ := by
  obtain ⟨decision, hdecide, hchecks⟩ := Except.exists_ok_of_any
    (by decide +kernel : (guardedWait.decide guardedPool).toOption.any (fun decision =>
      decision.evaluation.isTraced 13 && decide (decision.marks.liveHandlers = [false]) &&
        decision.marks.necessary.contains 1) = true)
  simp only [Bool.and_eq_true, decide_eq_true_eq] at hchecks
  obtain ⟨⟨htraced, hlive⟩, hnecessary⟩ := hchecks
  exact ⟨decision, hdecide, rfl, htraced, hlive, 1, by decide, by decide, hnecessary⟩

end JvmTrim
