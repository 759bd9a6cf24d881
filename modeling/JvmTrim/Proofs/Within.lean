import JvmTrim.Proofs.Join
import JvmTrim.Proofs.StackShape

/-!
# Frames within coarser frames

A simple evaluation keeps less of every value than a precise one: no constants, no names, of
references only whether they are known not to be null. `Frame.Within` compares a frame of a precise
evaluation with a frame of a simple one. Every slot and every word of the coarse frame has at least
the producers of its counterpart, and what it claims of null is true of the counterpart as well.

Words of the stack also agree on kinds, as far as the coarse word has one. Variables do not: they
need no kind, since a load puts a value of its own kind in place of one that does not fit. What
carries the comparison through a store is that both sides store a value of the same size.

The comparison of computations, `Transfer.RunsWithin`, asks of both sides to succeed. It is closed
under sequencing, so that a group of instructions is compared step by step.

## Main definitions

* `Value.IsPlain`: a value of which a simple evaluation keeps everything
* `Value.Within`, `Value.WithinKind`, `Value.WithinOf`, `Slot.Bounded`, `Locals.Within`, `Frame.Within`
* `Transfer.RunsWithin`: computations that lead from frames within each other to such frames

## Main results

* `Frame.Within.join`: a join of two frames stays within what both are within
* `Frame.Within.covers`: a frame stays within whatever covers the coarse frame
* `Transfer.RunsWithin.bind`, `Transfer.runsWithin_popKind`, `Transfer.runsWithin_push`
-/

namespace JvmTrim

/-! ## Values -/

namespace Value

/-- Whether a simple evaluation keeps all of a value, and the value is no return address. -/
def IsPlain (value : Value) : Prop :=
  Detail.simple.constant value = value ∧ value.returnAddresses? = none

/-- What a plain value, in a variable, says of a value of a precise evaluation. -/
structure Within (fine coarse : Value) : Prop where
  plain : coarse.IsPlain
  noAddress : fine.returnAddresses? = none
  notNull : coarse.isNotNull = true → fine.isNotNull = true

/-- What a plain value, on the stack, says of a value of a precise evaluation: the same as in a
variable, and its kind if it has one. -/
structure WithinKind (fine coarse : Value) : Prop extends Within fine coarse where
  kind : ∀ kind, coarse.kind? = some kind → fine.kind? = some kind

/-- A plain value is no constant and has no name. -/
theorem IsPlain.symbol?_eq_none {value : Value} (h : value.IsPlain) : value.symbol? = none := by
  obtain ⟨hkept, -⟩ := h
  cases value with
  | top => rfl
  | returnAddress offsets => rfl
  | _ =>
    rw [← hkept]
    rfl

theorem IsPlain.isNull_eq_false {value : Value} (h : value.IsPlain) : value.isNull = false := by
  obtain ⟨hkept, -⟩ := h
  cases value with
  | reference r =>
    rw [← hkept]
    rfl
  | _ => rfl

theorem IsPlain.expectInt {value : Value} {number : Option Int32} (h : value.IsPlain)
    (he : value.expectInt = .ok number) : number = none := by
  obtain ⟨hkept, -⟩ := h
  cases value with
  | int a =>
    rw [← hkept] at he
    cases he
    rfl
  | _ => cases he

theorem isPlain_top : top.IsPlain := ⟨rfl, rfl⟩

theorem isPlain_unknown (kind : Kind) : (unknown kind).IsPlain := by
  cases kind <;> exact ⟨rfl, rfl⟩

theorem isPlain_constant {value : Value} {kind : Kind} (h : value.kind? = some kind) :
    (Detail.simple.constant value).IsPlain := by
  cases value <;> cases h <;> exact ⟨rfl, rfl⟩

theorem isNotNull_constant (detail : Detail) (value : Value) :
    (detail.constant value).isNotNull = value.isNotNull := by
  cases detail <;> cases value <;> rfl

theorem returnAddresses?_of_kind? {value : Value} {kind : Kind} (h : value.kind? = some kind) :
    value.returnAddresses? = none := by
  cases value <;> cases h <;> rfl

theorem isNotNull_eq_false_of_kind? {value : Value} {kind : Kind} (h : value.kind? = some kind)
    (hne : kind ≠ .reference) : value.isNotNull = false := by
  cases value <;> cases h <;> first | rfl | exact absurd rfl hne

theorem kind?_eq_reference_of_isNotNull {value : Value} (h : value.isNotNull = true) :
    value.kind? = some .reference := by
  cases value <;> first | rfl | cases h

/-- A value within a coarser one, of a kind that both have. -/
def WithinOf (kind : Kind) (fine coarse : Value) : Prop :=
  fine.WithinKind coarse ∧ coarse.kind? = some kind

theorem WithinOf.isWide_eq {fine coarse : Value} {kind : Kind} (h : WithinOf kind fine coarse) :
    fine.isWide = coarse.isWide := by
  rw [isWide_of_kind? h.2, isWide_of_kind? (h.1.kind kind h.2)]

/-- A value is within what a simple evaluation keeps of another value of its kind, if that says
nothing more of null. -/
theorem withinOf_constant {fine value : Value} {kind : Kind} (hfine : fine.kind? = some kind)
    (hvalue : value.kind? = some kind)
    (hnotNull : value.isNotNull = true → fine.isNotNull = true) :
    WithinOf kind fine (Detail.simple.constant value) := by
  have hk := (Detail.kind?_constant .simple value).trans hvalue
  refine ⟨⟨⟨isPlain_constant hvalue, returnAddresses?_of_kind? hfine, ?_⟩, fun k hc => ?_⟩, hk⟩
  · rw [isNotNull_constant]
    exact hnotNull
  · rw [hfine, ← hk, hc]

theorem withinKind_top : top.WithinKind top :=
  ⟨⟨isPlain_top, rfl, id⟩, fun _ h => h⟩

/-! ### Joins -/

theorem isNotNull_join {a b : Value} (ha : a.isNotNull = true) (hb : b.isNotNull = true) :
    (a.join b).isNotNull = true := by
  cases a with
  | reference r =>
    cases b with
    | reference s =>
      simp only [isNotNull] at ha hb
      simp only [join, isNotNull]
      cases r <;> cases s <;> grind [Reference.join, Reference.isNotNull]
    | _ => cases hb
  | _ => cases ha

theorem kind?_join {a b : Value} {kind : Kind} (ha : a.kind? = some kind)
    (hb : b.kind? = some kind) : (a.join b).kind? = some kind := by
  cases a <;> cases ha <;> cases b <;> cases hb <;> rfl

theorem returnAddresses?_join {a b : Value} (ha : a.returnAddresses? = none) :
    (a.join b).returnAddresses? = none := by
  cases a <;> cases b <;> first | rfl | cases ha

theorem Within.join {a b coarse : Value} (ha : a.Within coarse) (hb : b.Within coarse) :
    (a.join b).Within coarse where
  plain := ha.plain
  noAddress := returnAddresses?_join ha.noAddress
  notNull h := isNotNull_join (ha.notNull h) (hb.notNull h)

theorem WithinKind.join {a b coarse : Value} (ha : a.WithinKind coarse)
    (hb : b.WithinKind coarse) : (a.join b).WithinKind coarse :=
  ⟨ha.toWithin.join hb.toWithin, fun kind h => kind?_join (ha.kind kind h) (hb.kind kind h)⟩

/-- A value that absorbs a plain one is plain. -/
theorem IsPlain.of_covers {above below : Value} (hc : above.Covers below) (h : below.IsPlain) :
    above.IsPlain := by
  obtain ⟨hkept, hfree⟩ := h
  have habsorbs : above.join below = above := hc
  cases above with
  | top => exact isPlain_top
  | returnAddress offsets => cases below <;> first | cases habsorbs | cases hfree
  | reference r =>
    cases below with
    | reference s =>
      simp only [Detail.constant, reference.injEq] at hkept
      simp only [Value.join, reference.injEq] at habsorbs
      refine ⟨?_, rfl⟩
      rw [← habsorbs, ← hkept]
      simp only [Reference.join]
      split
      · rename_i heq
        rw [heq]
        rfl
      · cases r <;> rfl
    | _ => cases habsorbs
  | _ =>
    cases below <;> first | cases habsorbs | skip
    all_goals
      simp only [Detail.constant, int.injEq, long.injEq, float.injEq, double.injEq] at hkept
      simp only [Value.join, int.injEq, long.injEq, float.injEq, double.injEq] at habsorbs
      rw [← habsorbs, ← hkept, Abstract.join]
      split
      · rename_i heq
        rw [heq]
        exact ⟨rfl, rfl⟩
      · exact ⟨rfl, rfl⟩

theorem Within.covers {fine coarse above : Value} (h : fine.Within coarse)
    (hc : above.Covers coarse) : fine.Within above where
  plain := h.plain.of_covers hc
  noAddress := h.noAddress
  notNull ha := h.notNull (hc.isNotNull ha)

theorem WithinKind.covers {fine coarse above : Value} (h : fine.WithinKind coarse)
    (hc : above.Covers coarse) : fine.WithinKind above :=
  ⟨h.toWithin.covers hc, fun kind ha => h.kind kind (hc.kind? ha)⟩

/-! ### Names -/

theorem returnAddresses?_withoutSymbol (value : Value) (symbol : Symbol)
    (h : value.returnAddresses? = none) : (value.withoutSymbol symbol).returnAddresses? = none := by
  unfold withoutSymbol
  split
  · cases value <;> rfl
  · exact h

theorem isNotNull_withoutSymbol (value : Value) (symbol : Symbol) :
    (value.withoutSymbol symbol).isNotNull = value.isNotNull := by
  unfold withoutSymbol
  split
  · cases value <;> rfl
  · rfl

theorem kind?_withoutSymbol (value : Value) (symbol : Symbol) :
    (value.withoutSymbol symbol).kind? = value.kind? := by
  unfold withoutSymbol
  split
  · cases value <;> rfl
  · rfl

theorem Within.withoutSymbol {fine coarse : Value} (h : fine.Within coarse) (symbol : Symbol) :
    (fine.withoutSymbol symbol).Within coarse where
  plain := h.plain
  noAddress := returnAddresses?_withoutSymbol fine symbol h.noAddress
  notNull hc := by rw [isNotNull_withoutSymbol]; exact h.notNull hc

theorem WithinKind.withoutSymbol {fine coarse : Value} (h : fine.WithinKind coarse)
    (symbol : Symbol) : (fine.withoutSymbol symbol).WithinKind coarse :=
  ⟨h.toWithin.withoutSymbol symbol, fun kind hk => by
    rw [kind?_withoutSymbol]; exact h.kind kind hk⟩

end Value

/-! ## Slots and frames -/

/-- Whether the producers of a slot are among those of a coarser one, and the values are related. -/
structure Slot.Bounded (R : Value → Value → Prop) (fine coarse : Slot) : Prop where
  value : R fine.value coarse.value
  producers : ∀ origin, fine.producers.contains origin = true →
    coarse.producers.contains origin = true

namespace Slot.Bounded

variable {R : Value → Value → Prop} {a b fine coarse above : Slot}

theorem same {value value' : Value} (h : R value value') (producers : OriginSet) :
    Bounded R ⟨value, producers⟩ ⟨value', producers⟩ :=
  ⟨h, fun _ hp => hp⟩

theorem join (hR : ∀ {x y z : Value}, R x z → R y z → R (x.join y) z) (ha : Bounded R a coarse)
    (hb : Bounded R b coarse) : Bounded R (a.join b) coarse where
  value := hR ha.value hb.value
  producers origin h := (OrderedSet.contains_union.mp h).elim (ha.producers origin)
    (hb.producers origin)

theorem covers (hR : ∀ {x y z : Value}, R x y → z.Covers y → R x z) (h : Bounded R fine coarse)
    (hc : above.Covers coarse) : Bounded R fine above := by
  obtain ⟨hvalue, hproducers⟩ := Slot.covers_iff.mp hc
  exact ⟨hR h.value hvalue, fun origin ho => hproducers origin (h.producers origin ho)⟩

theorem forget (hR : ∀ {x y : Value} (symbol : Symbol), R x y → R (x.withoutSymbol symbol) y)
    (h : Bounded R fine coarse) (symbol : Symbol) : Bounded R (fine.forget symbol) coarse :=
  ⟨hR symbol h.value, h.producers⟩

end Slot.Bounded

/-- A store into the variable behind cuts both of two compared values. -/
theorem Slot.Bounded.cut {fine coarse : Slot} (h : Bounded Value.Within fine coarse) :
    Bounded Value.Within (Locals.cut fine) (Locals.cut coarse) := by
  unfold Locals.cut
  split <;> split
  · exact ⟨Value.withinKind_top.toWithin, h.producers⟩
  · rename_i hwide _
    refine ⟨⟨h.value.plain, rfl, fun hn => ?_⟩, h.producers⟩
    have hkind := Value.kind?_eq_reference_of_isNotNull (h.value.notNull hn)
    rw [Value.isWide_of_kind? hkind] at hwide
    cases hwide
  · exact ⟨⟨Value.isPlain_top, h.value.noAddress, fun hn => by cases hn⟩, h.producers⟩
  · exact h

theorem forall₂_zipWith {α β γ δ : Type} {R : α → γ → Prop} {S : β → γ → Prop} {T : δ → γ → Prop}
    {f : α → β → δ} (h : ∀ a b c, R a c → S b c → T (f a b) c) {as : List α} {bs : List β}
    {cs : List γ} (ha : List.Forall₂ R as cs) (hb : List.Forall₂ S bs cs) :
    List.Forall₂ T (as.zipWith f bs) cs := by
  induction ha generalizing bs with
  | nil =>
    cases hb
    exact .nil
  | cons hhead _ ih =>
    cases hb with
    | cons hhead' htail => exact .cons (h _ _ _ hhead hhead') (ih htail)

/-- Variables within coarser ones. -/
structure Locals.Within (fine coarse : Locals) : Prop where
  size_eq : fine.size = coarse.size
  slot : ∀ (i : Nat) (a b : Slot), fine.slots[i]? = some a → coarse.slots[i]? = some b →
    Slot.Bounded Value.Within a b

namespace Locals.Within

variable {fine coarse fine' coarse' : Locals}

theorem forget (h : fine.Within coarse) (symbol : Symbol) : (fine.forget symbol).Within coarse where
  size_eq := by simpa [Locals.size, Locals.forget] using h.size_eq
  slot i a b ha hb := by
    simp only [Locals.forget, Array.getElem?_map, Option.map_eq_some_iff] at ha
    obtain ⟨old, hold, rfl⟩ := ha
    exact (h.slot i old b hold hb).forget (fun symbol hv => hv.withoutSymbol symbol) symbol

/-- Values of one size, stored into the same variable. -/
theorem store {slot : UInt16} {value value' : Value} {producers : OriginSet}
    (h : fine.Within coarse) (hvalue : value.Within value') (hwide : value.isWide = value'.isWide)
    (hfine : fine.store slot value producers = .ok fine')
    (hcoarse : coarse.store slot value' producers = .ok coarse') : fine'.Within coarse' := by
  obtain ⟨-, hsize, hslots⟩ := Locals.store_eq_ok hfine
  obtain ⟨-, hsize', hslots'⟩ := Locals.store_eq_ok hcoarse
  refine ⟨by rw [hsize, hsize', h.size_eq], fun i a b ha hb => ?_⟩
  rw [hslots] at ha
  rw [hslots', ← hwide] at hb
  by_cases hfirst : i = slot.toNat
  · rw [if_pos hfirst] at ha hb
    cases ha
    cases hb
    exact .same hvalue producers
  · rw [if_neg hfirst] at ha hb
    by_cases hsecond : value.isWide = true ∧ i = slot.toNat + 1
    · rw [if_pos hsecond] at ha hb
      cases ha
      cases hb
      exact .same Value.withinKind_top.toWithin producers
    · rw [if_neg hsecond] at ha hb
      by_cases hbelow : i + 1 = slot.toNat
      · rw [if_pos hbelow] at ha hb
        obtain ⟨old, hold, rfl⟩ := Option.map_eq_some_iff.mp ha
        obtain ⟨old', hold', rfl⟩ := Option.map_eq_some_iff.mp hb
        exact (h.slot i old old' hold hold').cut
      · rw [if_neg hbelow] at ha hb
        exact h.slot i a b ha hb

end Locals.Within

/-- A frame of a precise evaluation within a frame of a simple one. -/
structure Frame.Within (fine coarse : Frame) : Prop where
  locals : fine.locals.Within coarse.locals
  stack : List.Forall₂ (Slot.Bounded Value.WithinKind) fine.stack.view coarse.stack.view

namespace Frame.Within

variable {fine coarse : Frame}

theorem height_eq (h : fine.Within coarse) : fine.stack.height = coarse.stack.height := by
  rw [← Stack.length_view, ← Stack.length_view, h.stack.length_eq]

/-- A frame stays within whatever covers the coarse frame and has as many variables. -/
theorem covers {above : Frame} (h : fine.Within coarse) (hc : above.Covers coarse)
    (hsize : above.locals.size = coarse.locals.size) : fine.Within above where
  locals := by
    refine ⟨by rw [hsize, h.locals.size_eq], fun i a b ha hb => ?_⟩
    obtain ⟨below, hbelow, hcb⟩ := hc.slot i b hb
    exact (h.locals.slot i a below ha hbelow).covers Value.Within.covers hcb
  stack := forall₂_comp (fun _ _ _ hab hcb => hab.covers Value.WithinKind.covers hcb) h.stack
    hc.view.flip

/-- The join of two frames stays within what both are within. -/
theorem join {a b joined : Frame} {offset : Nat} (ha : a.Within coarse) (hb : b.Within coarse)
    (hj : a.joinAt offset b = .ok joined) : joined.Within coarse := by
  obtain ⟨hheight, rfl⟩ := Frame.joinAt_eq_ok_iff.mp hj
  refine ⟨⟨?_, fun i x y hx hy => ?_⟩, ?_⟩
  · have hsizes := ha.locals.size_eq.trans hb.locals.size_eq.symm
    rw [← ha.locals.size_eq]
    simp only [Locals.size, Locals.join, Array.size_zipWith] at hsizes ⊢
    omega
  · obtain ⟨u, v, hu, hv, rfl⟩ := Array.getElem?_zipWith_eq_some.mp hx
    exact (ha.locals.slot i u y hu hy).join Value.Within.join (hb.locals.slot i v y hv hy)
  · have hview : (Stack.mk (a.stack.words.zipWith Slot.join b.stack.words)).view =
        a.stack.view.zipWith Slot.join b.stack.view := by
      rw [Stack.view, Array.toList_zipWith, List.reverse_zipWith (by simpa [Stack.height] using hheight)]
      rfl
    rw [hview]
    exact forall₂_zipWith (fun _ _ _ hu hv => hu.join Value.WithinKind.join hv) ha.stack hb.stack

end Frame.Within

/-! ## Computations -/

namespace Transfer

variable {α β γ δ : Type}

/-- Whether two computations, where both succeed, lead from frames within each other to such frames
and to related results. -/
def RunsWithin (R : α → β → Prop) (x : Transfer α) (y : Transfer β) : Prop :=
  ∀ ⦃fine coarse fine' coarse' a b⦄, fine.Within coarse → x fine = .ok (a, fine') →
    y coarse = .ok (b, coarse') → fine'.Within coarse' ∧ R a b

namespace RunsWithin

variable {R : α → β → Prop} {S : γ → δ → Prop} {x : Transfer α} {y : Transfer β}

theorem bind {f : α → Transfer γ} {g : β → Transfer δ} (hx : RunsWithin R x y)
    (hf : ∀ a b, R a b → RunsWithin S (f a) (g b)) : RunsWithin S (x >>= f) (y >>= g) := by
  intro fine coarse fine' coarse' c d h hfine hcoarse
  obtain ⟨a, middle, hx', hfine⟩ := StateT.bind_eq_ok.mp hfine
  obtain ⟨b, middle', hy', hcoarse⟩ := StateT.bind_eq_ok.mp hcoarse
  obtain ⟨hmiddle, hab⟩ := hx h hx' hy'
  exact hf a b hab hmiddle hfine hcoarse

theorem pure {a : α} {b : β} (h : R a b) : RunsWithin R (Pure.pure a) (Pure.pure b) := by
  intro fine coarse fine' coarse' c d hw hfine hcoarse
  obtain ⟨rfl, rfl⟩ := StateT.pure_eq_ok.mp hfine
  obtain ⟨rfl, rfl⟩ := StateT.pure_eq_ok.mp hcoarse
  exact ⟨hw, h⟩

/-- Computations that do not see the frame. -/
theorem lift {a : Except Failure α} {b : Except Failure β}
    (h : ∀ c d, a = .ok c → b = .ok d → R c d) : RunsWithin R (liftM a) (liftM b) := by
  intro fine coarse fine' coarse' c d hw hfine hcoarse
  obtain ⟨hc, rfl⟩ := StateT.liftM_eq_ok.mp hfine
  obtain ⟨hd, rfl⟩ := StateT.liftM_eq_ok.mp hcoarse
  exact ⟨hw, h c d hc hd⟩

/-- The same computation on both sides, not seeing the frame, followed by others. -/
theorem bind_lift {a : Except Failure α} {f : α → Transfer γ} {g : α → Transfer δ}
    (h : ∀ c, a = .ok c → RunsWithin S (f c) (g c)) :
    RunsWithin S (liftM a >>= f) (liftM a >>= g) := by
  refine bind (R := fun c d => c = d ∧ a = .ok c) (lift fun c d hc hd => ⟨?_, hc⟩) ?_
  · exact Except.ok.inj (hc.symm.trans hd)
  · rintro c _ ⟨rfl, hc⟩
    exact h c hc

/-- A computation that fails is within every other one. -/
theorem of_error {failure : Failure} : RunsWithin R (liftM (Except.error failure)) y := by
  intro fine coarse fine' coarse' a b hw hx hy
  cases hx

end RunsWithin

/-! ### Access to the frame -/

variable {offset count : Nat} {kind : Kind} {value value' : Value}

theorem runsWithin_pop (count : Nat) :
    RunsWithin Value.WithinKind (pop count) (pop count) := by
  intro fine coarse fine' coarse' a b h hfine hcoarse
  obtain ⟨-, hview, hlocals, top, rest, htop, rfl⟩ := pop_eq_ok hfine
  obtain ⟨-, hview', hlocals', top', rest', htop', rfl⟩ := pop_eq_ok hcoarse
  refine ⟨⟨by rw [hlocals, hlocals']; exact h.locals, ?_⟩, ?_⟩
  · rw [hview, hview']
    exact List.forall₂_drop _ h.stack
  · have hstack := h.stack
    rw [htop, htop'] at hstack
    cases hstack with
    | cons hhead _ => exact hhead.value

theorem runsWithin_popKind (kind : Kind) :
    RunsWithin (Value.WithinOf kind) (popKind kind) (popKind kind) := by
  intro fine coarse fine' coarse' a b h hfine hcoarse
  obtain ⟨-, hview, hlocals, -, top, rest, htop, rfl⟩ := popKind_eq_ok hfine
  obtain ⟨-, hview', hlocals', hk', top', rest', htop', rfl⟩ := popKind_eq_ok hcoarse
  refine ⟨⟨by rw [hlocals, hlocals']; exact h.locals, ?_⟩, ?_, hk'⟩
  · rw [hview, hview']
    exact List.forall₂_drop _ h.stack
  · have hstack := h.stack
    rw [htop, htop'] at hstack
    cases hstack with
    | cons hhead _ => exact hhead.value

theorem runsWithin_popEach (count : Nat) :
    RunsWithin (fun _ _ => True) (popEach count) (popEach count) := by
  induction count with
  | zero => exact .pure trivial
  | succ count ih => exact (runsWithin_pop 1).bind fun _ _ _ => ih

/-- Values of one kind, pushed by the same instruction. -/
theorem runsWithin_push (h : Value.WithinOf kind value value') :
    RunsWithin (fun _ _ => True) (push offset value) (push offset value') := by
  intro fine coarse fine' coarse' _ _ hw hfine hcoarse
  obtain ⟨hview, hlocals⟩ := push_eq_ok hfine
  obtain ⟨hview', hlocals'⟩ := push_eq_ok hcoarse
  refine ⟨⟨by rw [hlocals, hlocals']; exact hw.locals, ?_⟩, trivial⟩
  rw [hview, hview']
  refine List.rel_append ?_ hw.stack
  unfold pushedWords
  rw [h.isWide_eq]
  split
  · exact .cons (.same h.1 _) (.cons (.same Value.withinKind_top _) .nil)
  · exact .cons (.same h.1 _) .nil

theorem runsWithin_load (slot : UInt16) : RunsWithin Value.Within (load slot) (load slot) := by
  intro fine coarse fine' coarse' a b h hfine hcoarse
  obtain ⟨rfl, found, hfound, rfl⟩ := load_eq_ok hfine
  obtain ⟨rfl, found', hfound', rfl⟩ := load_eq_ok hcoarse
  exact ⟨h, (h.locals.slot _ found found' hfound hfound').value⟩

/-- Values of one size, stored by the same instruction. -/
theorem runsWithin_store (slot : UInt16) (h : value.Within value')
    (hwide : value.isWide = value'.isWide) :
    RunsWithin (fun _ _ => True) (store offset slot value) (store offset slot value') := by
  intro fine coarse fine' coarse' _ _ hw hfine hcoarse
  obtain ⟨hstack, hlocals⟩ := store_eq_ok hfine
  obtain ⟨hstack', hlocals'⟩ := store_eq_ok hcoarse
  refine ⟨⟨hw.locals.store h hwide hlocals hlocals', ?_⟩, trivial⟩
  rw [hstack, hstack']
  exact hw.stack

/-- Only the precise side has names to forget. -/
theorem runsWithin_forget (symbol : Symbol) :
    RunsWithin (fun _ _ => True) (forget symbol) (Pure.pure ()) := by
  intro fine coarse fine' coarse' _ _ h hfine hcoarse
  cases forget_eq_ok hfine
  obtain ⟨-, rfl⟩ := StateT.pure_eq_ok.mp hcoarse
  refine ⟨⟨h.locals.forget symbol, ?_⟩, trivial⟩
  rw [Stack.view_forget]
  exact List.forall₂_map_left_iff.mpr (h.stack.imp fun _ _ hw =>
    hw.forget (fun symbol hv => hv.withoutSymbol symbol) symbol)

theorem runsWithin_shuffle (instruction : Instruction) (move : Shuffle) :
    RunsWithin (fun _ _ => True) (Context.shuffle offset instruction move)
      (Context.shuffle offset instruction move) := by
  intro fine coarse fine' coarse' _ _ h hfine hcoarse
  obtain ⟨copies, hcopies, hview, hlocals⟩ := shuffle_eq_ok hfine
  obtain ⟨copies', hcopies', hview', hlocals'⟩ := shuffle_eq_ok hcoarse
  refine ⟨⟨by rw [hlocals, hlocals']; exact h.locals, ?_⟩, trivial⟩
  rw [hview, hview']
  refine List.rel_append ?_ (List.forall₂_drop _ h.stack)
  have hwords := Shuffle.forall₂_copied? h.stack hcopies hcopies'
  exact List.forall₂_map_left_iff.mpr (List.forall₂_map_right_iff.mpr
    (hwords.imp fun _ _ hw => .same hw.value _))

end Transfer

end JvmTrim
