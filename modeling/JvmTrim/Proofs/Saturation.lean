import JvmTrim.Proofs.Marking
import JvmTrim.Proofs.PostFixpoint

/-!
# What the marks of a body satisfy

Propagation, unnecessary branches over code that stays, missing stores and empty loops are handled
in turn until nothing changes, once for every choice of live handlers. `Subject.Marked` collects
what holds in the end: the marks are closed, no branch is missing and no store, every loop that is
kept as a jump to itself is one that control cannot leave, and nothing is marked without a reason.
Whatever is reachable is entered in the end from the entry or from a handler that stays live.

## Main definitions

* `Subject.Entered`: the offsets that control gets to
* `Subject.Traps`: a range that control cannot leave
* `Subject.Starts`: why an instruction is marked necessary beside the rules of marking
* `Subject.Marked`: what the marks of a body satisfy

## Main results

* `Subject.reach_spec`, `Subject.liveCode_spec`, `Subject.saturate_spec`
* `Subject.marked_of_mark`: the marks of a body
-/

namespace JvmTrim

namespace Subject

variable {subject : Subject} {reductions : Reductions} {marks : Marks}

/-! ## Reachable offsets -/

/-- Whether a set of reached instructions is closed under the edges but for what is pending. -/
structure Reaches (subject : Subject) (pending : List Nat) (reached : IndexSet) : Prop where
  traced : ∀ o, reached.contains o = true → subject.evaluation.isTraced o = true
  leads : ∀ o s, reached.contains o = true → subject.evaluation.Leads o s →
    subject.evaluation.isTraced s = true → reached.contains s = true ∨ s ∈ pending

theorem mem_or_contains_of_dropWhile {reached : IndexSet} {pending rest : List Nat} {o : Nat}
    (h : (pending.dropWhile fun o => !subject.evaluation.isTraced o || reached.contains o) = rest)
    (ho : o ∈ pending) (ht : subject.evaluation.isTraced o = true) :
    reached.contains o = true ∨ o ∈ rest := by
  rw [← List.takeWhile_append_dropWhile
    (p := fun o => !subject.evaluation.isTraced o || reached.contains o) (l := pending), h] at ho
  rcases List.mem_append.mp ho with ho | ho
  · have hall := List.all_eq_true.mp List.all_takeWhile o ho
    simp only [ht, Bool.not_true, Bool.false_or] at hall
    exact .inl hall
  · exact .inr ho

theorem Reaches.of_dropWhile_eq_nil {reached : IndexSet} {pending : List Nat}
    (h : (pending.dropWhile fun o => !subject.evaluation.isTraced o || reached.contains o) = [])
    (hr : subject.Reaches pending reached) :
    subject.Reaches [] reached ∧
      ∀ o ∈ pending, subject.evaluation.isTraced o = true → reached.contains o = true := by
  have hset (o : Nat) (ho : o ∈ pending) (ht : subject.evaluation.isTraced o = true) :
      reached.contains o = true :=
    (mem_or_contains_of_dropWhile h ho ht).resolve_right (by simp)
  exact ⟨⟨hr.traced, fun o s ho hl ht => .inl ((hr.leads o s ho hl ht).elim id
    fun hs => hset s hs ht)⟩, hset⟩

/-- Adding a pending offset, whose targets become pending. -/
theorem Reaches.add {reached reached' : IndexSet} {pending rest : List Nat} {offset : Nat}
    {targets : OffsetSet}
    (hsome : (pending.dropWhile fun o => !subject.evaluation.isTraced o || reached.contains o) =
      offset :: rest) (htargets : subject.evaluation.targets offset = .ok targets)
    (hadd : reached.add offset = .ok reached') (hr : subject.Reaches pending reached) :
    subject.Reaches (targets.elements ++ rest) reached' := by
  have hcontains (o : Nat) : reached'.contains o = true ↔ o = offset ∨
      reached.contains o = true := by
    rw [(IndexSet.add_eq_ok hadd).2.2]
    simp
  constructor
  · intro o ho
    rcases (hcontains o).mp ho with rfl | ho
    · have hhead := List.head?_dropWhile_not
        (fun o => !subject.evaluation.isTraced o || reached.contains o) pending
      rw [hsome] at hhead
      simp_all
    · exact hr.traced o ho
  · intro o s ho hl ht
    rw [List.mem_append, hcontains]
    rcases (hcontains o).mp ho with rfl | ho
    · obtain ⟨set, hset, hs⟩ := Evaluation.leads_iff.mp hl
      cases htargets.symm.trans hset
      exact .inr (.inl hs)
    · rcases hr.leads o s ho hl ht with hs | hs
      · exact .inl (.inr hs)
      · rcases mem_or_contains_of_dropWhile hsome hs ht with hs | hs
        · exact .inl (.inr hs)
        · exact (List.mem_cons.mp hs).elim (fun he => .inl (.inl he)) (fun hs => .inr (.inr hs))

/-- Reaching offsets from pending ones leads to a set that is closed under the edges. -/
theorem reach_spec {bound : Nat} {pending : List Nat} {reached final : IndexSet}
    (h : subject.reach bound pending reached = .ok final)
    (hr : subject.Reaches pending reached) :
    subject.Reaches [] final ∧ (∀ o, reached.contains o = true → final.contains o = true) ∧
      ∀ o ∈ pending, subject.evaluation.isTraced o = true → final.contains o = true := by
  induction bound generalizing pending reached with
  | zero =>
    rw [reach] at h
    split at h
    · rename_i hnone
      cases h
      exact (hr.of_dropWhile_eq_nil hnone).imp_right fun hset => ⟨fun _ ho => ho, hset⟩
    · cases h
  | succ bound ih =>
    rw [reach] at h
    split at h
    · rename_i hnone
      cases h
      exact (hr.of_dropWhile_eq_nil hnone).imp_right fun hset => ⟨fun _ ho => ho, hset⟩
    · rename_i offset rest hsome
      obtain ⟨targets, htargets, h⟩ := Except.bind_eq_ok.mp h
      obtain ⟨reached', hadd, h⟩ := Except.bind_eq_ok.mp h
      have hkeeps (o : Nat) (ho : o = offset ∨ reached.contains o = true) :
          reached'.contains o = true := by
        rw [(IndexSet.add_eq_ok hadd).2.2]
        simpa using ho
      obtain ⟨hfinal, hkept, hpending⟩ := ih h (hr.add hsome htargets hadd)
      refine ⟨hfinal, fun o ho => hkept o (hkeeps o (.inr ho)), fun o ho ht => ?_⟩
      rcases mem_or_contains_of_dropWhile hsome ho ht with ho | ho
      · exact hkept o (hkeeps o (.inr ho))
      · rcases List.mem_cons.mp ho with rfl | ho
        · exact hkept o (hkeeps o (.inl rfl))
        · exact hpending o (List.mem_append.mpr (.inr ho)) ht

/-- Whether control gets to an offset from the entry or from a live handler. -/
inductive Entered (subject : Subject) (live : List Bool) : Nat → Prop where
  | start {o : Nat} (ho : o ∈ 0 :: subject.liveTargets live)
      (ht : subject.evaluation.isTraced o = true) : Entered subject live o
  | step {o s : Nat} (h : Entered subject live o) (hl : subject.evaluation.Leads o s)
      (ht : subject.evaluation.isTraced s = true) : Entered subject live s

/-- Whatever is reached from pending offsets is entered if these are. -/
theorem entered_of_reach {live : List Bool} {bound : Nat} {pending : List Nat}
    {reached final : IndexSet} (h : subject.reach bound pending reached = .ok final)
    (hpending : ∀ o ∈ pending, subject.evaluation.isTraced o = true → subject.Entered live o)
    (hreached : ∀ o, reached.contains o = true → subject.Entered live o) :
    ∀ o, final.contains o = true → subject.Entered live o := by
  induction bound generalizing pending reached with
  | zero =>
    rw [reach] at h
    split at h
    · cases h
      exact hreached
    · cases h
  | succ bound ih =>
    rw [reach] at h
    split at h
    · cases h
      exact hreached
    · rename_i offset rest hsome
      obtain ⟨targets, htargets, h⟩ := Except.bind_eq_ok.mp h
      obtain ⟨reached', hadd, h⟩ := Except.bind_eq_ok.mp h
      have hsuffix : offset :: rest <:+ pending := hsome ▸ List.dropWhile_suffix _
      have hentered : subject.Entered live offset := by
        refine hpending offset (hsuffix.subset List.mem_cons_self) ?_
        have hhead := List.head?_dropWhile_not
          (fun o => !subject.evaluation.isTraced o || reached.contains o) pending
        rw [hsome] at hhead
        simp_all
      refine ih h (fun o ho ht => ?_) (fun o ho => ?_)
      · rcases List.mem_append.mp ho with ho | ho
        · exact .step hentered (Evaluation.leads_iff.mpr ⟨targets, htargets, ho⟩) ht
        · exact hpending o (hsuffix.subset (List.mem_cons_of_mem _ ho)) ht
      · rw [(IndexSet.add_eq_ok hadd).2.2] at ho
        simp only [Bool.or_eq_true, decide_eq_true_eq] at ho
        rcases ho with rfl | ho
        · exact hentered
        · exact hreached o ho

/-! ## Code that stays -/

/-- **The offsets for which code stays**: necessary instructions and others that leave code. -/
theorem liveCode_spec {live : IndexSet} (h : subject.liveCode marks = .ok live) :
    (∀ o, marks.necessary.contains o = true → live.contains o = true) ∧
      (∀ o, live.contains o = true → marks.necessary.contains o = true ∨
        marks.reachable.contains o = true ∧ subject.leavesCode marks o = .ok true) ∧
      ∀ o, marks.reachable.contains o = true → live.contains o = true ∨
        subject.leavesCode marks o = .ok false := by
  have hfold : ((∀ i, marks.necessary.contains i = true → live.contains i = true) ∧
      ∀ i, live.contains i = true → marks.necessary.contains i = true ∨
        marks.reachable.contains i = true ∧ subject.leavesCode marks i = .ok true) ∧
      ∀ o ∈ marks.reachable.toList, marks.necessary.contains o = true ∨
        live.contains o = true ∨ subject.leavesCode marks o = .ok false := by
    refine foldlM_along
      (fun a b : IndexSet => (∀ i, a.contains i = true → b.contains i = true) ∧
        ∀ i, b.contains i = true → a.contains i = true ∨
          marks.reachable.contains i = true ∧ subject.leavesCode marks i = .ok true)
      (fun o found => marks.necessary.contains o = true ∨ found.contains o = true ∨
        subject.leavesCode marks o = .ok false)
      (fun a => ⟨fun _ h => h, fun _ h => .inl h⟩)
      (fun hab hbc => ⟨fun i hi => hbc.1 i (hab.1 i hi),
        fun i hi => (hbc.2 i hi).elim (hab.2 i) .inr⟩)
      (fun hq hab => hq.imp_right (Or.imp_left (hab.1 _))) (fun found o found' ho hstep => ?_) h
    have hreach := IndexSet.mem_toList.mp ho
    split at hstep
    · rename_i hn
      cases hstep
      exact ⟨⟨fun _ h => h, fun _ h => .inl h⟩, .inl hn⟩
    · obtain ⟨leaves, hleaves, hstep⟩ := Except.bind_eq_ok.mp hstep
      cases leaves with
      | false =>
        cases hstep
        exact ⟨⟨fun _ h => h, fun _ h => .inl h⟩, .inr (.inr hleaves)⟩
      | true =>
        have hadd := (IndexSet.add_eq_ok hstep).2.2
        refine ⟨⟨fun i hi => by simp [hadd, hi], fun i hi => ?_⟩, .inr (.inl (by simp [hadd]))⟩
        simp only [hadd, Bool.or_eq_true, decide_eq_true_eq] at hi
        exact hi.elim (fun he => .inr ⟨he ▸ hreach, he ▸ hleaves⟩) .inl
  refine ⟨hfold.1.1, hfold.1.2, fun o ho => ?_⟩
  exact (hfold.2 o (IndexSet.mem_toList.mpr ho)).elim (fun hn => .inl (hfold.1.1 o hn)) id

/-! ## Further rules -/

/-- Why there is a mark beside the rules of marking. -/
inductive Starts (subject : Subject) (simple : Evaluation) (reductions : Reductions)
    (reachable : IndexSet) : Mark → Prop where
  /-- A handler finds an exception on the stack. -/
  | exception (target : Nat) :
      Starts subject simple reductions reachable (.present ⟨.handler target, 0⟩)
  /-- A constructor calls another one. -/
  | initialization {offset : Nat} (h : subject.evaluation.superInitialization = some offset)
      (hreach : reachable.contains offset = true) :
      Starts subject simple reductions reachable (.necessary offset)
  /-- A loop of one instruction, or one that is empty. -/
  | jump {offset : Nat} {instruction : Instruction}
      (hi : subject.evaluation.instruction? offset = some instruction)
      (hjump : instruction.operation = .jump) (hreach : reachable.contains offset = true) :
      Starts subject simple reductions reachable (.necessary offset)
  /-- An instruction with side effects. -/
  | effect {offset : Nat} (heffect : subject.sideEffects.contains offset = true)
      (hr : reductions[offset]? = some none) (hreach : reachable.contains offset = true) :
      Starts subject simple reductions reachable (.necessary offset)
  /-- A branch that may jump over code. -/
  | branch {offset : Nat} {instruction : Instruction}
      (hi : subject.evaluation.instruction? offset = some instruction)
      (hflow : instruction.flow ≠ .sequential) (hr : reductions[offset]? = some none)
      (hreach : reachable.contains offset = true) :
      Starts subject simple reductions reachable (.necessary offset)
  /-- A branch that is reduced to a jump, which may jump over code or close an empty loop. -/
  | goto {offset target : Nat} (hr : reductions[offset]? = some (some (.goto target)))
      (hreach : reachable.contains offset = true) :
      Starts subject simple reductions reachable (.necessary offset)
  /-- An instruction that may have written a variable that is read. -/
  | store {offset producer : Nat} {slot : UInt16} {locals : Locals} {found : Slot}
      (hl : simple.localsBefore? offset = some locals) (hload : locals.load slot = .ok found)
      (ho : .instruction producer ∈ found.producers.elements)
      (hreach : reachable.contains producer = true) :
      Starts subject simple reductions reachable (.necessary producer)

/-- Whether no unnecessary branch jumps over code that stays. -/
def NoneStraddles (subject : Subject) (reductions : Reductions) (marks : Marks)
    (live : IndexSet) : Prop :=
  ∀ offset, marks.reachable.contains offset = true → marks.necessary.contains offset = false →
    ∃ targets, subject.straddlingTargets reductions offset = .ok targets ∧
      ∀ target ∈ targets, subject.straddles live offset target = false

theorem straddlingBranches_spec {found : List Mark} (simple : Evaluation)
    (h : subject.straddlingBranches reductions marks = .ok found) :
    (∀ m ∈ found, subject.Starts simple reductions marks.reachable m) ∧ (found = [] →
      ∃ live, subject.liveCode marks = .ok live ∧ subject.NoneStraddles reductions marks live) := by
  obtain ⟨live, hlive, h⟩ := Except.bind_eq_ok.mp h
  obtain ⟨lists, hlists, h⟩ := Except.bind_eq_ok.mp h
  cases h
  obtain ⟨hevery, hfrom⟩ := mem_of_mapM hlists
  constructor
  · intro m hm
    obtain ⟨list, hlist, hm⟩ := List.mem_flatten.mp hm
    obtain ⟨offset, -, hoffset⟩ := hfrom list hlist
    split at hoffset
    · cases hoffset
      cases hm
    · obtain ⟨targets, htargets, hoffset⟩ := Except.bind_eq_ok.mp hoffset
      split at hoffset
      · rename_i hany
        cases hoffset
        obtain ⟨rfl, hreach, -⟩ := Marks.mem_require.mp hm
        obtain ⟨reduction, hr, htargets⟩ := Except.bind_eq_ok.mp htargets
        rw [Reductions.at, orFail_eq_ok] at hr
        split at htargets
        · exact .goto hr hreach
        · cases htargets
          simp at hany
        · obtain ⟨instruction, hi, htargets⟩ := Except.bind_eq_ok.mp htargets
          rw [Subject.instruction, orDefect_eq_ok] at hi
          refine .branch hi (fun hflow => ?_) hr hreach
          rw [hflow] at htargets
          cases htargets
          simp at hany
      · cases hoffset
        cases hm
  · intro hnone
    refine ⟨live, hlive, fun offset hreach hnec => ?_⟩
    obtain ⟨list, hlist, hoffset⟩ := hevery offset (IndexSet.mem_toList.mpr hreach)
    rw [if_neg (by simp [hnec])] at hoffset
    obtain ⟨targets, htargets, hoffset⟩ := Except.bind_eq_ok.mp hoffset
    refine ⟨targets, htargets, fun target ht => ?_⟩
    by_contra hstraddles
    rw [if_pos (List.any_eq_true.mpr ⟨target, ht, by simpa using hstraddles⟩)] at hoffset
    cases hoffset
    have hmem : Mark.necessary offset ∈ lists.flatten := List.mem_flatten.mpr
      ⟨_, hlist, Marks.mem_require.mpr ⟨rfl, hreach, hnec⟩⟩
    rw [hnone] at hmem
    cases hmem

theorem slotRead?_of_reads {offset : Nat} {slot : UInt16}
    (h : subject.Reads reductions offset slot) :
    subject.slotRead? reductions offset = .ok (some slot) := by
  unfold slotRead?
  rcases h with hr | ⟨instruction, hu, hslot⟩
  · simp [Reductions.at, hr, bind, Except.bind]
    rfl
  · simp [Reductions.at, hu.reduction, Subject.instruction, hu.listed, orDefect, hslot, bind,
      Except.bind]
    rfl

/-- Whether no store is missing that the simple evaluation knows. -/
def NoneMissing (subject : Subject) (reductions : Reductions) (simple : Evaluation)
    (marks : Marks) : Prop :=
  ∀ offset slot locals found producer, marks.necessary.contains offset = true →
    subject.Reads reductions offset slot → simple.localsBefore? offset = some locals →
    locals.load slot = .ok found → .instruction producer ∈ found.producers.elements →
    marks.reachable.contains producer = true → marks.necessary.contains producer = true

theorem missingStores_spec {found : List Mark} {simple : Evaluation}
    (h : subject.missingStores reductions simple marks = .ok found) :
    (∀ m ∈ found, subject.Starts simple reductions marks.reachable m) ∧ (found = [] →
      subject.NoneMissing reductions simple marks) := by
  obtain ⟨lists, hlists, h⟩ := Except.bind_eq_ok.mp h
  cases h
  obtain ⟨hevery, hfrom⟩ := mem_of_mapM hlists
  constructor
  · intro m hm
    obtain ⟨list, hlist, hm⟩ := List.mem_flatten.mp hm
    obtain ⟨offset, -, hoffset⟩ := hfrom list hlist
    obtain ⟨slot?, -, hoffset⟩ := Except.bind_eq_ok.mp hoffset
    cases slot? with
    | none =>
      cases hoffset
      cases hm
    | some slot =>
      obtain ⟨locals, found, producer, hl, hload, ho, hm⟩ := (mem_variableProducers hoffset).mp hm
      obtain ⟨rfl, hreach, -⟩ := Marks.mem_require.mp hm
      exact .store hl hload ho hreach
  · intro hnone offset slot locals found producer hnec hread hl hload ho hreach
    obtain ⟨list, hlist, hoffset⟩ := hevery offset (IndexSet.mem_toList.mpr hnec)
    rw [slotRead?_of_reads hread] at hoffset
    refine (Marks.has_of_require hreach).resolve_left fun hmem => ?_
    have hmem' : Mark.necessary producer ∈ lists.flatten := List.mem_flatten.mpr
      ⟨_, hlist, (mem_variableProducers hoffset).mpr ⟨_, _, _, hl, hload, ho, hmem⟩⟩
    rw [hnone] at hmem'
    cases hmem'

/-! ## Loops -/

theorem anyE_eq_false {α : Type} {ask : α → Except Failure Bool} {list : List α}
    (h : anyE ask list = .ok false) : ∀ a ∈ list, ask a = .ok false := by
  induction list with
  | nil => simp
  | cons head tail ih =>
    obtain ⟨answer, ha, h⟩ := Except.bind_eq_ok.mp h
    cases answer with
    | true => cases h
    | false =>
      intro a hmem
      rcases List.mem_cons.mp hmem with rfl | hmem
      · exact ha
      · exact ih h a hmem

theorem anyE_eq_true {α : Type} {ask : α → Except Failure Bool} {list : List α}
    (h : anyE ask list = .ok true) : ∃ a ∈ list, ask a = .ok true := by
  induction list with
  | nil => cases h
  | cons head tail ih =>
    obtain ⟨answer, ha, h⟩ := Except.bind_eq_ok.mp h
    cases answer with
    | true => exact ⟨head, List.mem_cons_self, ha⟩
    | false =>
      obtain ⟨a, hmem, hask⟩ := ih h
      exact ⟨a, List.mem_cons_of_mem _ hmem, hask⟩

theorem findE?_eq_none {α : Type} {ask : α → Except Failure Bool} {list : List α}
    (h : findE? ask list = .ok none) : ∀ a ∈ list, ask a = .ok false := by
  induction list with
  | nil => simp
  | cons head tail ih =>
    obtain ⟨answer, ha, h⟩ := Except.bind_eq_ok.mp h
    cases answer with
    | true => cases h
    | false =>
      intro a hmem
      rcases List.mem_cons.mp hmem with rfl | hmem
      · exact ha
      · exact ih h a hmem

theorem findE?_eq_some {α : Type} {ask : α → Except Failure Bool} {list : List α} {a : α}
    (h : findE? ask list = .ok (some a)) : a ∈ list ∧ ask a = .ok true := by
  induction list with
  | nil => cases h
  | cons head tail ih =>
    obtain ⟨answer, ha, h⟩ := Except.bind_eq_ok.mp h
    cases answer with
    | true =>
      cases h
      exact ⟨List.mem_cons_self, ha⟩
    | false => exact (ih h).imp_left (List.mem_cons_of_mem _)

theorem contains_eq_false_of_anyIn {set : IndexSet} {start stop index : Nat}
    (h : set.anyIn start stop = false) (hge : start ≤ index) (hlt : index < stop) :
    set.contains index = false := by
  by_contra hc
  rw [Bool.not_eq_false] at hc
  exact absurd (h.symm.trans (IndexSet.anyIn_iff.mpr ⟨index, hge, hlt, hc⟩)) Bool.false_ne_true

/-- Whether control that is in the range from `head` to `offset` stays there. -/
def Traps (subject : Subject) (reductions : Reductions) (reachable : IndexSet)
    (head offset : Nat) : Prop :=
  ∀ inner, reachable.contains inner = true → head ≤ inner → inner < offset →
    ∃ instruction reduction targets, subject.evaluation.instruction? inner = some instruction ∧
      instruction.flow ≠ .return ∧ instruction.flow ≠ .throw ∧
      reductions[inner]? = some reduction ∧ subject.reducedTargets reduction inner = .ok targets ∧
      ∀ target ∈ targets, head ≤ target ∧ target ≤ offset

theorem traps_of_loopExits {head offset : Nat}
    (h : subject.loopExits reductions marks head offset = .ok false) :
    subject.Traps reductions marks.reachable head offset := by
  intro inner hreach hge hlt
  have hleaves := anyE_eq_false h inner (by
    simp only [List.mem_filter, IndexSet.mem_toList, hreach, hge, hlt, Bool.and_self,
      decide_true, and_self])
  obtain ⟨instruction, hi, hleaves⟩ := Except.bind_eq_ok.mp hleaves
  rw [Subject.instruction, orDefect_eq_ok] at hi
  split at hleaves
  · cases hleaves
  · cases hleaves
  · rename_i hreturn hthrow
    obtain ⟨reduction, hr, hleaves⟩ := Except.bind_eq_ok.mp hleaves
    obtain ⟨targets, ht, hleaves⟩ := Except.bind_eq_ok.mp hleaves
    rw [Reductions.at, orFail_eq_ok] at hr
    have hnone := (Bool.or_eq_false_iff.mp (Except.ok.inj hleaves)).1
    refine ⟨instruction, reduction, targets, hi, hreturn, hthrow, hr, ht, fun target hmem => ?_⟩
    have hinside := List.any_eq_false.mp hnone target hmem
    simp only [Bool.or_eq_true, decide_eq_true_eq] at hinside
    omega

/-- A loop of which nothing is left and which has no way out. -/
theorem emptyLoop?_eq_some {offset : Nat}
    (h : subject.emptyLoop? reductions marks = .ok (some offset)) :
    marks.reachable.contains offset = true ∧ marks.necessary.contains offset = false ∧
      ∃ reduction head, reductions[offset]? = some reduction ∧
        subject.backwardGoto? reduction offset = .ok (some head) ∧
        (∀ inner, head ≤ inner → inner < offset → marks.necessary.contains inner = false) ∧
        subject.Traps reductions marks.reachable head offset := by
  obtain ⟨live, hlive, h⟩ := Except.bind_eq_ok.mp h
  obtain ⟨hmem, h⟩ := findE?_eq_some h
  refine ⟨IndexSet.mem_toList.mp hmem, ?_⟩
  unfold closesEmptyLoop at h
  split at h
  · cases h
  · rename_i hnec
    refine ⟨by simpa using hnec, ?_⟩
    obtain ⟨reduction, hr, h⟩ := Except.bind_eq_ok.mp h
    obtain ⟨head?, hhead, h⟩ := Except.bind_eq_ok.mp h
    rw [Reductions.at, orFail_eq_ok] at hr
    cases head? with
    | none => cases h
    | some head =>
      simp only at h
      split at h
      · cases h
      · rename_i hany
        obtain ⟨before, -, h⟩ := Except.bind_eq_ok.mp h
        obtain ⟨instruction, -, h⟩ := Except.bind_eq_ok.mp h
        obtain ⟨effect, -, h⟩ := Except.bind_eq_ok.mp h
        split at h
        · cases h
        · obtain ⟨exits, hexits, h⟩ := Except.bind_eq_ok.mp h
          obtain rfl : exits = false := by simpa using Except.ok.inj h
          refine ⟨reduction, head, hr, hhead, fun inner hge hlt => ?_, traps_of_loopExits hexits⟩
          have hdead := contains_eq_false_of_anyIn (by simpa using hany) hge hlt
          by_contra hn
          rw [(liveCode_spec hlive).1 inner (by simpa using hn)] at hdead
          cases hdead

/-- Whether reductions are the original ones but for loops without a way out, which are kept as
jumps to themselves. -/
def AddsLoops (subject : Subject) (original : Reductions) (reachable : IndexSet)
    (reductions : Reductions) : Prop :=
  ∀ offset, reductions[offset]? = original[offset]? ∨
    reductions[offset]? = some (some .loop) ∧ ∃ reduction head,
      original[offset]? = some reduction ∧
      subject.backwardGoto? reduction offset = .ok (some head) ∧
      subject.Traps original reachable head offset

namespace AddsLoops

variable {original : Reductions} {reachable : IndexSet}
  (h : subject.AddsLoops original reachable reductions)

include h

theorem eq_of_ne_loop {offset : Nat} {reduction : Option Reduction}
    (hr : reductions[offset]? = some reduction) (hne : reduction ≠ some .loop) :
    original[offset]? = some reduction := by
  rcases h offset with he | ⟨hloop, -⟩
  · exact he ▸ hr
  · cases hr.symm.trans hloop
    exact absurd rfl hne

theorem unreduced {offset : Nat} {instruction : Instruction}
    (hu : subject.Unreduced reductions offset instruction) :
    subject.Unreduced original offset instruction :=
  ⟨hu.listed, h.eq_of_ne_loop hu.reduction (by simp), hu.not_shuffle⟩

theorem reads {offset : Nat} {slot : UInt16} (hr : subject.Reads reductions offset slot) :
    subject.Reads original offset slot := by
  rcases hr with hr | ⟨instruction, hu, hslot⟩
  · exact .inl (h.eq_of_ne_loop hr (by simp))
  · exact .inr ⟨instruction, h.unreduced hu, hslot⟩

/-- A jump to itself lets nothing follow. -/
theorem follows {set : IndexSet} {a b : Mark} (hf : subject.Follows reductions set a b) :
    subject.Follows original set a b := by
  cases hf with
  | operand hu hs he hp hw ho => exact .operand (h.unreduced hu) hs he hp hw ho
  | «variable» hr hl hload ho hreach => exact .variable (h.reads hr) hl hload ho hreach
  | initializer hu hnew hc hreach => exact .initializer (h.unreduced hu) hnew hc hreach
  | present word => exact .present word
  | source hreach hsource hs hw ho => exact .source hreach hsource hs hw ho
  | producer hreach hsource => exact .producer hreach hsource
  | copied hreach hsource hs hw ho => exact .copied hreach hsource hs hw ho
  | partner hreach hs hp => exact .partner hreach hs hp
  | occurrence hreach hs hw ho hp hw' ho' => exact .occurrence hreach hs hw ho hp hw' ho'

theorem starts {simple : Evaluation} {set : IndexSet} {m : Mark}
    (hs : subject.Starts simple reductions set m) : subject.Starts simple original set m := by
  cases hs with
  | exception target => exact .exception target
  | initialization hs hreach => exact .initialization hs hreach
  | jump hi hjump hreach => exact .jump hi hjump hreach
  | effect heffect hr hreach => exact .effect heffect (h.eq_of_ne_loop hr (by simp)) hreach
  | branch hi hflow hr hreach => exact .branch hi hflow (h.eq_of_ne_loop hr (by simp)) hreach
  | goto hr hreach => exact .goto (h.eq_of_ne_loop hr (by simp)) hreach
  | store hl hload ho hreach => exact .store hl hload ho hreach

end AddsLoops

/-- What a backward jump is: an instruction that is one, or a branch that is reduced to one. -/
theorem backwardGoto?_eq_some {reduction : Option Reduction} {offset head : Nat}
    (h : subject.backwardGoto? reduction offset = .ok (some head)) :
    head ≤ offset ∧ (reduction = some (.goto head) ∨ reduction = none ∧ ∃ instruction targets,
      subject.evaluation.instruction? offset = some instruction ∧
      instruction.operation = .jump ∧ instruction.branchTargets offset = .ok targets ∧
      targets.head? = some head) := by
  have hfilter {target : Option Nat}
      (h : (pure (target.filter (· ≤ offset)) : Except Failure _) = .ok (some head)) :
      target = some head ∧ head ≤ offset := by
    have := Option.filter_eq_some_iff.mp (Except.ok.inj h)
    simpa using this
  unfold backwardGoto? at h
  split at h
  · obtain ⟨target, ht, h⟩ := Except.bind_eq_ok.mp h
    cases ht
    obtain ⟨htarget, hle⟩ := hfilter h
    cases htarget
    exact ⟨hle, .inl rfl⟩
  · cases h
  · obtain ⟨instruction, hi, h⟩ := Except.bind_eq_ok.mp h
    rw [Subject.instruction, orDefect_eq_ok] at hi
    obtain ⟨target, ht, h⟩ := Except.bind_eq_ok.mp h
    obtain ⟨rfl, hle⟩ := hfilter h
    unfold gotoTarget? at ht
    split at ht
    · rename_i hjump
      obtain ⟨targets, htargets, ht⟩ := Except.bind_eq_ok.mp ht
      exact ⟨hle, .inr ⟨rfl, instruction, targets, hi, hjump, htargets, Except.ok.inj ht⟩⟩
    · cases ht

/-- Keeping one more empty loop. -/
theorem AddsLoops.setLoop {original : Reductions} {offset : Nat}
    (h : subject.AddsLoops original marks.reachable reductions)
    (hset : ∀ o, reductions[o]? ≠ original[o]? → marks.necessary.contains o = true)
    (hempty : subject.emptyLoop? reductions marks = .ok (some offset)) :
    subject.AddsLoops original marks.reachable (reductions.setIfInBounds offset (some .loop)) ∧
      ∀ simple, subject.Starts simple original marks.reachable (.necessary offset) := by
  obtain ⟨hreach, hnec, reduction, head, hr, hhead, hdead, htraps⟩ := emptyLoop?_eq_some hempty
  have hsame (o : Nat) (hn : marks.necessary.contains o = false) :
      reductions[o]? = original[o]? := by
    by_contra hne
    rw [hset o hne] at hn
    cases hn
  have htraps' : subject.Traps original marks.reachable head offset := by
    intro inner hin hge hlt
    rw [← hsame inner (hdead inner hge hlt)]
    exact htraps inner hin hge hlt
  refine ⟨fun o => ?_, fun simple => ?_⟩
  · by_cases ho : offset = o
    · subst ho
      refine .inr ⟨?_, reduction, head, hsame offset hnec ▸ hr, hhead, htraps'⟩
      rw [Array.getElem?_setIfInBounds_self_of_lt (Array.getElem?_eq_some_iff.mp hr).1]
    · rw [Array.getElem?_setIfInBounds_ne ho]
      exact h o
  · rcases (backwardGoto?_eq_some hhead).2 with rfl | ⟨-, instruction, targets, hi, hjump, -⟩
    · exact .goto (hsame offset hnec ▸ hr) hreach
    · exact .jump hi hjump hreach

/-! ## All rules together -/

/-- What holds once all rules were applied until nothing changed. -/
structure Saturated (subject : Subject) (original : Reductions) (simple : Evaluation)
    (marks : Marks) (reductions : Reductions) : Prop where
  closed : subject.IsClosed reductions marks
  straddles : ∃ live, subject.liveCode marks = .ok live ∧
    subject.NoneStraddles reductions marks live
  missing : subject.NoneMissing reductions simple marks
  loops : subject.AddsLoops original marks.reachable reductions
  necessary : ∀ o, reductions[o]? ≠ original[o]? → marks.necessary.contains o = true

/-- What one round of all rules does: it finds nothing, or it starts another round. -/
theorem saturate_cases {simple : Evaluation} {bound : Nat} {pending : List Mark} {final : Marks}
    {reductions' : Reductions}
    (h : subject.saturate simple bound pending reductions marks = .ok (final, reductions')) :
    ∃ propagated branches stores,
      subject.propagate reductions subject.markBound pending.reverse marks = .ok propagated ∧
      subject.straddlingBranches reductions propagated = .ok branches ∧
      subject.missingStores reductions simple propagated = .ok stores ∧
      (branches ++ stores = [] ∧ subject.emptyLoop? reductions propagated = .ok none ∧
          final = propagated ∧ reductions' = reductions ∨
        ∃ rest following changed, bound = rest + 1 ∧
          subject.saturate simple rest following changed propagated = .ok (final, reductions') ∧
          (following = branches ++ stores ∧ changed = reductions ∨ ∃ offset,
            subject.emptyLoop? reductions propagated = .ok (some offset) ∧
            following = [.necessary offset] ∧
            changed = reductions.setIfInBounds offset (some .loop))) := by
  rw [saturate] at h
  obtain ⟨propagated, hpropagate, h⟩ := Except.bind_eq_ok.mp h
  obtain ⟨branches, hbranches, h⟩ := Except.bind_eq_ok.mp h
  obtain ⟨stores, hstores, h⟩ := Except.bind_eq_ok.mp h
  refine ⟨propagated, branches, stores, hpropagate, hbranches, hstores, ?_⟩
  dsimp only at h
  have hgoOn {next : Except Failure (Marks × Reductions)}
      (h : (if (branches ++ stores).isEmpty = true then pure (propagated, reductions) else next)
        = .ok (final, reductions')) :
      branches ++ stores = [] ∧ final = propagated ∧ reductions' = reductions ∨
        next = .ok (final, reductions') := by
    split at h
    · rename_i hempty
      cases h
      exact .inl ⟨List.isEmpty_iff.mp hempty, rfl, rfl⟩
    · exact .inr h
  by_cases hempty : (branches ++ stores).isEmpty = true
  · rw [if_pos hempty] at h
    obtain ⟨loop, hloop, h⟩ := Except.bind_eq_ok.mp h
    cases loop with
    | none =>
      refine (hgoOn h).imp (fun ⟨hnone, hsame⟩ => ⟨hnone, hloop, hsame⟩) fun hmore => ?_
      cases bound with
      | zero => cases hmore
      | succ rest => exact ⟨rest, _, _, rfl, hmore, .inl ⟨rfl, rfl⟩⟩
    | some offset =>
      obtain ⟨hreach, hnec, -⟩ := emptyLoop?_eq_some hloop
      have hrequire : propagated.require offset = [.necessary offset] := by
        simp [Marks.require, hreach, hnec]
      simp only [hrequire, List.isEmpty_cons, Bool.false_eq_true, if_false] at h
      cases bound with
      | zero => cases h
      | succ rest => exact .inr ⟨rest, _, _, rfl, h, .inr ⟨offset, hloop, rfl, rfl⟩⟩
  · rw [if_neg hempty] at h
    refine .inr ?_
    have hmore := (hgoOn h).resolve_left fun hnone => hempty (List.isEmpty_iff.mpr hnone.1)
    cases bound with
    | zero => cases hmore
    | succ rest => exact ⟨rest, _, _, rfl, hmore, .inl ⟨rfl, rfl⟩⟩

/-- **One round after the other.** Applying all rules ends with saturated marks, and it adds nothing
but what follows from the marks to start with and from the further rules. -/
theorem saturate_spec {original : Reductions} {simple : Evaluation} {bound : Nat}
    {pending : List Mark} {final : Marks} {reductions' : Reductions}
    (h : subject.saturate simple bound pending reductions marks = .ok (final, reductions'))
    (hclosed : ∀ a b, marks.has a = true → subject.Follows reductions marks.reachable a b →
      marks.has b = true ∨ b ∈ pending)
    (hloops : subject.AddsLoops original marks.reachable reductions)
    (hset : ∀ o, reductions[o]? ≠ original[o]? →
      marks.has (.necessary o) = true ∨ .necessary o ∈ pending) :
    subject.Grows original (fun m => m ∈ pending ∨ subject.Starts simple original marks.reachable m)
        marks final ∧
      (∀ m ∈ pending, final.has m = true) ∧
      subject.Saturated original simple final reductions' ∧
      subject.emptyLoop? reductions' final = .ok none := by
  induction bound using Nat.strongRecOn generalizing pending marks reductions with
  | _ bound ih =>
    obtain ⟨propagated, branches, stores, hpropagate, hbranches, hstores, h⟩ := saturate_cases h
    obtain ⟨hgrows, hpending, hclosed'⟩ := propagate_spec hpropagate fun a b ha hb =>
      (hclosed a b ha hb).imp_right List.mem_reverse.mpr
    obtain ⟨hbranch, hnone⟩ := straddlingBranches_spec simple hbranches
    obtain ⟨hstore, hnone'⟩ := missingStores_spec hstores
    have hset' (o : Nat) (hne : reductions[o]? ≠ original[o]?) :
        propagated.necessary.contains o = true :=
      (hset o hne).elim (hgrows.has _) fun hm => hpending _ (List.mem_reverse.mpr hm)
    rw [← hgrows.reachable] at hloops ⊢
    have hold (P : Mark → Prop) (hP : ∀ m, marks.has m = true → P m)
        (hP' : ∀ m, m ∈ pending ∨ subject.Starts simple original propagated.reachable m → P m)
        (later : Marks)
        (hreach : later.reachable = propagated.reachable)
        (hlater : ∀ m, propagated.has m = true → later.has m = true)
        (hfollows : ∀ a b, later.has a = true → P a →
          subject.Follows original later.reachable a b → P b) :
        ∀ m, propagated.has m = true → P m := by
      refine hgrows.induction P hP (fun m hm => hP' m (.inl (List.mem_reverse.mp hm))) ?_
      intro a b ha hPa hab
      exact hfollows a b (hlater a ha) hPa (hreach ▸ hloops.follows hab)
    rcases h with ⟨hempty, hsought, rfl, rfl⟩ | ⟨rest, following, changed, rfl, h, hchanged⟩
    · obtain ⟨rfl, rfl⟩ := List.append_eq_nil_iff.mp hempty
      refine ⟨⟨hgrows.reachable, hgrows.liveHandlers, hgrows.has, fun P hP hP' hfollows => ?_⟩,
        fun m hm => hpending m (List.mem_reverse.mpr hm),
        ⟨hclosed', hnone rfl, hnone' rfl, hloops, hset'⟩, hsought⟩
      exact hold P hP hP' _ rfl (fun _ hm => hm) hfollows
    · have hnext : subject.AddsLoops original propagated.reachable changed ∧
          (∀ m ∈ following, subject.Starts simple original propagated.reachable m) ∧
          (∀ a b, subject.Follows changed propagated.reachable a b →
            subject.Follows reductions propagated.reachable a b) ∧
          ∀ o, changed[o]? ≠ original[o]? →
            propagated.necessary.contains o = true ∨ .necessary o ∈ following := by
        rcases hchanged with ⟨rfl, rfl⟩ | ⟨offset, hloop, rfl, rfl⟩
        · refine ⟨hloops, fun m hm => ?_, fun _ _ hab => hab, fun o ho => .inl (hset' o ho)⟩
          exact hloops.starts ((List.mem_append.mp hm).elim (hbranch m) (hstore m))
        · obtain ⟨hadds, hstarts⟩ := hloops.setLoop hset' hloop
          have hsame : subject.AddsLoops reductions propagated.reachable reductions :=
            fun _ => .inl rfl
          have hadds' := (hsame.setLoop (fun o ho => absurd rfl ho) hloop).1
          refine ⟨hadds, ?_, fun _ _ => hadds'.follows, fun o ho => ?_⟩
          · simpa using hstarts simple
          · by_cases hoffset : offset = o
            · subst hoffset
              exact .inr List.mem_cons_self
            · rw [Array.getElem?_setIfInBounds_ne hoffset] at ho
              exact .inl (hset' o ho)
      obtain ⟨hadds, hstarts, hless, hmarked⟩ := hnext
      obtain ⟨hgrows', hfollowing, hsaturated⟩ := ih rest (Nat.lt_succ_self _) h
        (fun a b ha hab => .inl (hclosed' a b ha (hless a b hab))) hadds hmarked
      refine ⟨⟨hgrows'.reachable.trans hgrows.reachable,
        hgrows'.liveHandlers.trans hgrows.liveHandlers,
        fun m hm => hgrows'.has m (hgrows.has m hm), fun P hP hP' hfollows => ?_⟩,
        fun m hm => hgrows'.has m (hpending m (List.mem_reverse.mpr hm)), hsaturated⟩
      refine hgrows'.induction P ?_ (fun m hm => hP' m (.inr (hm.elim (hstarts m) id))) hfollows
      exact hold P hP hP' final hgrows'.reachable hgrows'.has hfollows

/-! ## Loops that are taken back -/

theorem revertLoops_spec {earlier final : Reductions}
    (h : subject.revertLoops earlier reductions marks = .ok final) :
    ∃ live, subject.liveCode marks = .ok live ∧
      (∀ o : Nat, final[o]? = reductions[o]? ∨
        reductions[o]? = some (some .loop) ∧ final[o]? = earlier[o]?) ∧
      ∀ (o : Nat) reduction head, final[o]? = some (some .loop) → earlier[o]? = some reduction →
        subject.backwardGoto? reduction o = .ok (some head) → live.anyIn head o = false := by
  obtain ⟨live, hlive, h⟩ := Except.bind_eq_ok.mp h
  have hfold : (∀ o : Nat, final[o]? = reductions[o]? ∨
      reductions[o]? = some (some .loop) ∧ final[o]? = earlier[o]?) ∧
      ∀ o ∈ List.range reductions.size, ∀ reduction head, final[o]? = some (some .loop) →
        earlier[o]? = some reduction → subject.backwardGoto? reduction o = .ok (some head) →
        live.anyIn head o = false := by
    refine foldlM_along
      (fun a b : Reductions => ∀ o : Nat, b[o]? = a[o]? ∨
        a[o]? = some (some .loop) ∧ b[o]? = earlier[o]?)
      (fun o r => ∀ reduction head, r[o]? = some (some .loop) → earlier[o]? = some reduction →
        subject.backwardGoto? reduction o = .ok (some head) → live.anyIn head o = false)
      (fun _ _ => .inl rfl) (fun hab hbc o => ?_) (fun hq hab reduction head hl he hb => ?_)
      (fun a o b ho hstep => ?_) h
    · rcases hab o with hab | ⟨hab, hab'⟩ <;> rcases hbc o with hbc | ⟨hbc, hbc'⟩
      · exact .inl (hbc.trans hab)
      · exact .inr ⟨hab ▸ hbc, hbc'⟩
      · exact .inr ⟨hab, hbc.trans hab'⟩
      · exact .inr ⟨hab, hbc'⟩
    · rcases hab _ with hab | ⟨-, hab⟩
      · exact hq reduction head (hab ▸ hl) he hb
      · cases he.symm.trans (hab ▸ hl)
        cases hb
    · obtain ⟨current, hc, hstep⟩ := Except.bind_eq_ok.mp hstep
      rw [Reductions.at, orFail_eq_ok] at hc
      split at hstep
      · rename_i hloop
        subst hloop
        obtain ⟨reduction, hr, hstep⟩ := Except.bind_eq_ok.mp hstep
        obtain ⟨head, hhead, hstep⟩ := Except.bind_eq_ok.mp hstep
        rw [Reductions.at, orFail_eq_ok] at hr
        split at hstep
        · cases hstep
          have hsize := (Array.getElem?_eq_some_iff.mp hc).1
          refine ⟨fun i => ?_, fun reduction' head' hl he hb => ?_⟩
          · by_cases hi : o = i
            · subst hi
              rw [Array.getElem?_setIfInBounds_self_of_lt hsize, hr]
              exact .inr ⟨hc, rfl⟩
            · rw [Array.getElem?_setIfInBounds_ne hi]
              exact .inl rfl
          · rw [Array.getElem?_setIfInBounds_self_of_lt hsize] at hl
            cases hl
            cases hr.symm.trans he
            cases hb
        · rename_i hdead
          cases hstep
          refine ⟨fun _ => .inl rfl, fun reduction' head' hl he hb => ?_⟩
          cases hr.symm.trans he
          cases hhead.symm.trans hb
          simpa using hdead
      · rename_i hloop
        cases hstep
        refine ⟨fun _ => .inl rfl, fun reduction' head' hl he hb => ?_⟩
        cases hc.symm.trans hl
        exact absurd rfl hloop
  refine ⟨live, hlive, hfold.1, fun o reduction head hl => hfold.2 o ?_ reduction head hl⟩
  rw [List.mem_range]
  rcases hfold.1 o with hsame | ⟨hloop, -⟩
  · exact (Array.getElem?_eq_some_iff.mp (hsame ▸ hl)).1
  · exact (Array.getElem?_eq_some_iff.mp hloop).1

/-! ## The marks of a body -/

theorem roots_spec {found : List Mark} (simple : Evaluation)
    (h : subject.roots reductions marks = .ok found) :
    (∀ m ∈ found, subject.Starts simple reductions marks.reachable m) ∧
      ∀ o, marks.reachable.contains o = true → subject.isRoot reductions o = .ok true →
        marks.has (.necessary o) = true ∨ .necessary o ∈ found := by
  obtain ⟨offsets, hoffsets, h⟩ := Except.bind_eq_ok.mp h
  cases h
  have hmem := mem_of_filterM hoffsets
  constructor
  · intro m hm
    rcases List.mem_append.mp hm with hm | hm
    · rcases List.mem_append.mp hm with hm | hm
      · obtain ⟨target, -, rfl⟩ := List.mem_map.mp hm
        exact .exception target
      · cases hc : subject.evaluation.superInitialization with
        | none => simp [hc] at hm
        | some call =>
          simp only [hc, Option.map_some, Option.getD_some] at hm
          obtain ⟨rfl, hreach, -⟩ := Marks.mem_require.mp hm
          exact .initialization hc hreach
    · obtain ⟨o, ho, hm⟩ := List.mem_flatMap.mp hm
      obtain ⟨rfl, hreach, -⟩ := Marks.mem_require.mp hm
      obtain ⟨-, hroot⟩ := (hmem o).mp ho
      obtain ⟨instruction, hi, hroot⟩ := Except.bind_eq_ok.mp hroot
      obtain ⟨target, ht, hroot⟩ := Except.bind_eq_ok.mp hroot
      rw [Subject.instruction, orDefect_eq_ok] at hi
      split at hroot
      · rename_i hself
        unfold gotoTarget? at ht
        split at ht
        · rename_i hjump
          exact .jump hi hjump hreach
        · cases ht
          cases hself
      · split at hroot
        · rename_i heffect
          obtain ⟨reduction, hr, hroot⟩ := Except.bind_eq_ok.mp hroot
          rw [Reductions.at, orFail_eq_ok] at hr
          obtain rfl : reduction = none := by simpa using Except.ok.inj hroot
          exact .effect heffect hr hreach
        · cases hroot
  · intro o hreach hroot
    refine (Marks.has_of_require hreach).symm.imp_right fun hrequire => ?_
    refine List.mem_append.mpr (.inr (List.mem_flatMap.mpr ⟨o, ?_, hrequire⟩))
    exact (hmem o).mpr ⟨IndexSet.mem_toList.mpr hreach, hroot⟩

/-- What the marks and the reductions of a body satisfy. -/
structure Marked (subject : Subject) (original : Reductions) (simple : Evaluation)
    (marks : Marks) (reductions : Reductions) : Prop where
  evaluated : evaluate ⟨subject.assumptions, .simple, some marks.reachable, subject.maxVisits⟩
    subject.pool subject.owner subject.method subject.code = .ok simple
  reaches : subject.Reaches [] marks.reachable
  entry : ∀ o ∈ 0 :: subject.liveTargets marks.liveHandlers, subject.evaluation.isTraced o = true →
    marks.reachable.contains o = true
  entered : ∀ o, marks.reachable.contains o = true → subject.Entered marks.liveHandlers o
  handlers : subject.stillLive marks = marks.liveHandlers
  roots : ∀ o, marks.reachable.contains o = true → subject.isRoot original o = .ok true →
    marks.necessary.contains o = true
  closed : subject.IsClosed reductions marks
  straddles : ∃ live, subject.liveCode marks = .ok live ∧
    subject.NoneStraddles reductions marks live ∧ ∀ (o : Nat) reduction head,
      reductions[o]? = some (some .loop) → original[o]? = some reduction →
      subject.backwardGoto? reduction o = .ok (some head) → live.anyIn head o = false
  missing : subject.NoneMissing reductions simple marks
  loops : subject.AddsLoops original marks.reachable reductions
  changed : ∀ o, reductions[o]? ≠ original[o]? → marks.necessary.contains o = true
  /-- No empty loop was found in the end, before loops were taken back. -/
  sought : ∃ reduced, subject.AddsLoops original marks.reachable reduced ∧
    (∀ o, reduced[o]? ≠ original[o]? → marks.necessary.contains o = true) ∧
    subject.emptyLoop? reduced marks = .ok none
  induction : ∀ P : Mark → Prop, (∀ m, subject.Starts simple original marks.reachable m → P m) →
    (∀ a b, marks.has a = true → P a → subject.Follows original marks.reachable a b → P b) →
    ∀ m, marks.has m = true → P m

/-- A jump reads and takes nothing. -/
theorem quiet_of_jump {offset head : Nat} {instruction : Instruction}
    (hi : subject.evaluation.instruction? offset = some instruction)
    (hjump : subject.backwardGoto? none offset = .ok (some head)) :
    instruction.operation = .jump ∧ instruction.readSlot? = none ∧
      ∀ effect, instruction.stackEffect subject.pool = .ok effect → effect.pops = 0 := by
  obtain ⟨-, hreduction | ⟨-, instruction', targets, hi', hop, htargets, hhead⟩⟩ :=
    backwardGoto?_eq_some hjump
  · cases hreduction
  cases hi.symm.trans hi'
  have haccess : instruction.localAccess? = none := by
    unfold Instruction.localAccess?
    simp only [hop]
  refine ⟨hop, ?_, fun effect he => ?_⟩
  · unfold Instruction.readSlot? Instruction.slot?
    simp only [haccess, hop]
    cases hoperand : instruction.operand with
    | increment slot amount =>
      simp only [Instruction.branchTargets, Instruction.displacements, hoperand] at htargets
      cases htargets
      cases hhead
    | _ => rfl
  · unfold Instruction.stackEffect at he
    simp only [hop] at he
    cases he
    rfl

/-- **Where control gets out of a jump back** that closes no empty loop, though nothing is left of
what it jumps over. -/
theorem exists_leavesFrom {live : IndexSet} {last head : Nat}
    (h : subject.emptyLoop? reductions marks = .ok none)
    (hlive : subject.liveCode marks = .ok live) (hreach : marks.reachable.contains last = true)
    (hn : marks.necessary.contains last = false) (hr : reductions[last]? = some none)
    (hback : subject.backwardGoto? none last = .ok (some head))
    (hdead : live.anyIn head last = false) :
    ∃ inner, marks.reachable.contains inner = true ∧ head ≤ inner ∧ inner < last ∧
      subject.leavesFrom reductions marks head last inner = .ok true := by
  obtain ⟨live', hlive', h⟩ := Except.bind_eq_ok.mp h
  cases hlive.symm.trans hlive'
  have hcloses := findE?_eq_none h last (IndexSet.mem_toList.mpr hreach)
  unfold closesEmptyLoop at hcloses
  rw [hn, if_neg Bool.false_ne_true] at hcloses
  obtain ⟨reduction, hreduction, hcloses⟩ := Except.bind_eq_ok.mp hcloses
  rw [Reductions.at, orFail_eq_ok, hr] at hreduction
  cases hreduction
  obtain ⟨head?, hhead, hcloses⟩ := Except.bind_eq_ok.mp hcloses
  cases hback.symm.trans hhead
  simp only [hdead, Bool.false_eq_true, if_false] at hcloses
  obtain ⟨before, -, hcloses⟩ := Except.bind_eq_ok.mp hcloses
  obtain ⟨instruction, hi, hcloses⟩ := Except.bind_eq_ok.mp hcloses
  obtain ⟨effect, heffect, hcloses⟩ := Except.bind_eq_ok.mp hcloses
  rw [Subject.instruction, orDefect_eq_ok] at hi
  rw [(quiet_of_jump hi hback).2.2 effect heffect] at hcloses
  simp only [Nat.zero_min, List.range'_zero, List.any_nil, Bool.false_eq_true, if_false] at hcloses
  obtain ⟨exits, hexits, hcloses⟩ := Except.bind_eq_ok.mp hcloses
  obtain rfl : exits = true := by simpa using Except.ok.inj hcloses
  obtain ⟨inner, hmem, hleaves⟩ := anyE_eq_true hexits
  simp only [List.mem_filter, IndexSet.mem_toList, Bool.and_eq_true, decide_eq_true_eq] at hmem
  exact ⟨inner, hmem.1, hmem.2.1, hmem.2.2, hleaves⟩

/-- How control leaves a range: it returns or throws, goes on outside, or is caught outside. -/
theorem leavesFrom_eq_true {head last inner : Nat}
    (h : subject.leavesFrom reductions marks head last inner = .ok true) :
    ∃ instruction, subject.evaluation.instruction? inner = some instruction ∧
      (instruction.flow = .return ∨ instruction.flow = .throw ∨
        (∃ reduction targets, reductions[inner]? = some reduction ∧
          subject.reducedTargets reduction inner = .ok targets ∧
          ∃ target ∈ targets, target < head ∨ last < target) ∨
        ∃ (index : Nat) (handler : Handler), subject.code.handlers[index]? = some handler ∧
          marks.liveHandlers[index]? = some true ∧ handler.covers inner = true ∧
          (handler.target < head ∨ last < handler.target)) := by
  obtain ⟨instruction, hi, h⟩ := Except.bind_eq_ok.mp h
  rw [Subject.instruction, orDefect_eq_ok] at hi
  refine ⟨instruction, hi, ?_⟩
  split at h
  · rename_i hreturn
    exact .inl hreturn
  · rename_i hthrow
    exact .inr (.inl hthrow)
  · obtain ⟨reduction, hr, h⟩ := Except.bind_eq_ok.mp h
    obtain ⟨targets, ht, h⟩ := Except.bind_eq_ok.mp h
    rw [Reductions.at, orFail_eq_ok] at hr
    rcases (Bool.or_eq_true ..).mp (Except.ok.inj h) with hany | hany
    · obtain ⟨target, hmem, houtside⟩ := List.any_eq_true.mp hany
      refine .inr (.inr (.inl ⟨reduction, targets, hr, ht, target, hmem, ?_⟩))
      simpa using houtside
    · obtain ⟨⟨handler, live⟩, hmem, hcaught⟩ := List.any_eq_true.mp hany
      simp only [Bool.and_eq_true, Bool.or_eq_true, decide_eq_true_eq] at hcaught
      obtain ⟨⟨rfl, hcovers⟩, houtside⟩ := hcaught
      obtain ⟨index, hindex⟩ := List.mem_iff_getElem?.mp hmem
      obtain ⟨hhandler, hflag⟩ := List.getElem?_zip_eq_some.mp hindex
      exact .inr (.inr (.inr ⟨index, handler, hhandler, hflag, hcovers, houtside⟩))

/-- Taking back loops changes nothing for marks that are saturated. -/
theorem Saturated.revert {original final : Reductions} {simple : Evaluation}
    (h : subject.Saturated original simple marks reductions)
    (hrevert : ∀ o : Nat, final[o]? = reductions[o]? ∨
      reductions[o]? = some (some .loop) ∧ final[o]? = original[o]?) :
    subject.Saturated original simple marks final := by
  have hback (o : Nat) (reduction : Option Reduction) (hr : final[o]? = some reduction) :
      reductions[o]? = some reduction ∨ marks.necessary.contains o = true ∧
        ∃ head, subject.backwardGoto? reduction o = .ok (some head) := by
    rcases hrevert o with hsame | ⟨hloop, hfinal⟩
    · exact .inl (hsame ▸ hr)
    · rcases h.loops o with hsame | ⟨-, reduction', head, hr', hhead, -⟩
      · exact .inl ((hsame.trans hfinal.symm).trans hr)
      · cases (hfinal.trans hr').symm.trans hr
        refine .inr ⟨h.necessary o fun he => ?_, head, hhead⟩
        cases (he.symm.trans hloop).symm.trans hr'
        cases hhead
  have hunreduced {o : Nat} {instruction : Instruction}
      (hu : subject.Unreduced final o instruction) :
      subject.Unreduced reductions o instruction ∨ instruction.operation = .jump ∧
        instruction.readSlot? = none ∧
        ∀ effect, instruction.stackEffect subject.pool = .ok effect → effect.pops = 0 := by
    rcases hback o none hu.reduction with hr | ⟨-, head, hhead⟩
    · exact .inl ⟨hu.listed, hr, hu.not_shuffle⟩
    · exact .inr (quiet_of_jump hu.listed hhead)
  have hreads {o : Nat} {slot : UInt16} (hr : subject.Reads final o slot) :
      subject.Reads reductions o slot := by
    rcases hr with hr | ⟨instruction, hu, hslot⟩
    · rcases hback o _ hr with hr | ⟨-, head, hhead⟩
      · exact .inl hr
      · cases hhead
    · rcases hunreduced hu with hu | ⟨-, hnone, -⟩
      · exact .inr ⟨instruction, hu, hslot⟩
      · cases hnone.symm.trans hslot
  obtain ⟨live, hlive, hnone⟩ := h.straddles
  refine ⟨fun a b ha hab => h.closed a b ha ?_, ⟨live, hlive, fun o hreach hnec => ?_⟩, ?_, ?_, ?_⟩
  · cases hab with
    | operand hu hs he hp hw ho =>
      rcases hunreduced hu with hu | ⟨-, -, hquiet⟩
      · exact .operand hu hs he hp hw ho
      · have hlt := (Array.getElem?_eq_some_iff.mp hw).1
        rw [hquiet _ he] at hp
        simp only [Stack.height] at hp
        omega
    | «variable» hr hl hload ho hreach => exact .variable (hreads hr) hl hload ho hreach
    | initializer hu hnew hc hreach =>
      rcases hunreduced hu with hu | ⟨hjump, -, -⟩
      · exact .initializer hu hnew hc hreach
      · cases hjump.symm.trans hnew
    | present word => exact .present word
    | source hreach hsource hs hw ho => exact .source hreach hsource hs hw ho
    | producer hreach hsource => exact .producer hreach hsource
    | copied hreach hsource hs hw ho => exact .copied hreach hsource hs hw ho
    | partner hreach hs hp => exact .partner hreach hs hp
    | occurrence hreach hs hw ho hp hw' ho' => exact .occurrence hreach hs hw ho hp hw' ho'
  · obtain ⟨targets, htargets, hall⟩ := hnone o hreach hnec
    have hsame : final[o]? = reductions[o]? := by
      rcases hrevert o with hsame | ⟨-, hfinal⟩
      · exact hsame
      · by_contra hne
        rw [h.necessary o fun he => hne (hfinal.trans he.symm)] at hnec
        cases hnec
    refine ⟨targets, ?_, hall⟩
    rw [← htargets]
    unfold straddlingTargets Reductions.at
    rw [hsame]
  · intro o slot locals found producer hnec hr
    exact h.missing o slot locals found producer hnec (hreads hr)
  · intro o
    rcases hrevert o with hsame | ⟨-, hfinal⟩
    · rw [hsame]
      exact h.loops o
    · exact .inl hfinal
  · intro o hne
    rcases hrevert o with hsame | ⟨-, hfinal⟩
    · exact h.necessary o (hsame ▸ hne)
    · exact absurd hfinal hne

theorem unmarked_spec {live : List Bool} (h : subject.unmarked live = .ok marks) :
    subject.Reaches [] marks.reachable ∧
      (∀ o ∈ 0 :: subject.liveTargets live, subject.evaluation.isTraced o = true →
        marks.reachable.contains o = true) ∧
      (∀ o, marks.reachable.contains o = true → subject.Entered live o) ∧
      marks.liveHandlers = live ∧ ∀ m, marks.has m = false := by
  obtain ⟨reachable, hreach, h⟩ := Except.bind_eq_ok.mp h
  cases h
  obtain ⟨hreaches, -, hpending⟩ := reach_spec hreach ⟨by simp, by simp⟩
  refine ⟨hreaches, hpending, entered_of_reach hreach (fun o ho => .start ho) (by simp), rfl,
    fun m => ?_⟩
  cases m <;> simp [Marks.has]

theorem markWith_spec {live : List Bool} {reductions' : Reductions}
    (h : subject.markWith reductions live = .ok (marks, reductions'))
    (hleft : subject.stillLive marks = live) :
    ∃ simple, subject.Saturated reductions simple marks reductions' ∧
      ∀ final, subject.Saturated reductions simple marks final →
        (∀ live, subject.liveCode marks = .ok live → ∀ (o : Nat) reduction head,
          final[o]? = some (some .loop) → reductions[o]? = some reduction →
          subject.backwardGoto? reduction o = .ok (some head) → live.anyIn head o = false) →
        subject.Marked reductions simple marks final := by
  obtain ⟨unmarked, hunmarked, h⟩ := Except.bind_eq_ok.mp h
  obtain ⟨simple, hsimple, h⟩ := Except.bind_eq_ok.mp h
  obtain ⟨roots, hroots, h⟩ := Except.bind_eq_ok.mp h
  obtain ⟨hreaches, hentry, hentered, hkept, hnone⟩ := unmarked_spec hunmarked
  obtain ⟨hstarts, hall⟩ := roots_spec simple hroots
  have hvoid {m : Mark} {p : Prop} (hm : unmarked.has m = true) : p := by
    rw [hnone m] at hm
    cases hm
  obtain ⟨hgrows, hpending, hsaturated, hsought⟩ := saturate_spec h (fun a b ha => hvoid ha)
    (fun _ => .inl rfl) (fun o ho => absurd rfl ho)
  refine ⟨simple, hsaturated, fun final hfinal hdead => ?_⟩
  obtain ⟨live, hlive, hstraddles⟩ := hfinal.straddles
  have hsame := hgrows.liveHandlers.trans hkept
  refine ⟨hgrows.reachable ▸ hsimple, hgrows.reachable ▸ hreaches,
    hgrows.reachable ▸ hsame ▸ hentry, hgrows.reachable ▸ hsame ▸ hentered,
    hleft.trans hsame.symm, fun o ho hroot => ?_, hfinal.closed,
    ⟨live, hlive, hstraddles, hdead live hlive⟩, hfinal.missing, hfinal.loops, hfinal.necessary,
    ⟨reductions', hsaturated.loops, hsaturated.necessary, hsought⟩, fun P hP hfollows => ?_⟩
  · exact hpending _ ((hall o (hgrows.reachable ▸ ho) hroot).resolve_left fun hm => hvoid hm)
  · refine hgrows.induction P (fun m hm => hvoid hm) (fun m hm => hP m ?_) hfollows
    rw [hgrows.reachable]
    exact hm.elim (hstarts m) id

/-- Marks that are final, with the loops taken back of which code is left. -/
theorem marked_of_markWith {live : List Bool} {reduced final : Reductions}
    (h : subject.markWith reductions live = .ok (marks, reduced))
    (hlive : subject.stillLive marks = live)
    (hrevert : subject.revertLoops reductions reduced marks = .ok final) :
    ∃ simple, subject.Marked reductions simple marks final := by
  obtain ⟨simple, hsaturated, hmarked⟩ := markWith_spec h hlive
  obtain ⟨code, hcode, hkept, hdead⟩ := revertLoops_spec hrevert
  refine ⟨simple, hmarked final (hsaturated.revert hkept) fun code' hcode' => ?_⟩
  cases hcode.symm.trans hcode'
  exact hdead

/-- **Induction on the rounds of marking:** what holds of the live handlers of the last round, and of
those of a round if it holds of those that it leaves, holds of the ones that marking starts with. -/
theorem markFrom_induction {final : Reductions} {motive : Nat → List Bool → Prop}
    (settled : ∀ bound live reduced, subject.markWith reductions live = .ok (marks, reduced) →
      subject.stillLive marks = live → subject.revertLoops reductions reduced marks = .ok final →
      motive bound live)
    (again : ∀ bound live round reduced, subject.markWith reductions live = .ok (round, reduced) →
      subject.stillLive round ≠ live → motive bound (subject.stillLive round) →
      motive (bound + 1) live) {bound : Nat} {live : List Bool}
    (h : subject.markFrom reductions bound live = .ok (marks, final)) : motive bound live := by
  induction bound generalizing live with
  | zero =>
    rw [markFrom] at h
    obtain ⟨⟨round, reduced⟩, hwith, h⟩ := Except.bind_eq_ok.mp h
    simp only at h
    split at h
    · rename_i hsettled
      obtain ⟨reverted, hrevert, h⟩ := Except.bind_eq_ok.mp h
      cases h
      exact settled 0 live reduced hwith hsettled hrevert
    · cases h
  | succ bound ih =>
    rw [markFrom] at h
    obtain ⟨⟨round, reduced⟩, hwith, h⟩ := Except.bind_eq_ok.mp h
    simp only at h
    split at h
    · rename_i hsettled
      obtain ⟨reverted, hrevert, h⟩ := Except.bind_eq_ok.mp h
      cases h
      exact settled (bound + 1) live reduced hwith hsettled hrevert
    · rename_i hfewer
      exact again bound live round reduced hwith hfewer (ih h)

/-- **The marks of a body** are closed, complete and justified. -/
theorem marked_of_mark {final : Reductions} (h : subject.mark reductions = .ok (marks, final)) :
    ∃ simple, subject.Marked reductions simple marks final := by
  refine markFrom_induction (motive := fun _ _ => ∃ simple,
    subject.Marked reductions simple marks final) ?_ ?_ h
  · exact fun _ live reduced hwith hsettled hrevert => marked_of_markWith hwith hsettled hrevert
  · exact fun _ _ _ _ _ _ ih => ih

end Subject

end JvmTrim
