import JvmTrim.Proofs.Exits
import JvmTrim.Proofs.Naming
import JvmTrim.Proofs.PostFixpoint

/-!
# Executing an instruction keeps what holds

If a frame holds of a store, then what executing an instruction makes of the frame holds of what the
machine makes of the store. The name of the instruction's latest result may have to change its number,
and it may do so because the evaluation forgot every older use of that name first. Control goes on at
one of the successors, also where a branch is decided by a constant or by two values known to be the
same.

## Main definitions

* `Context.Keeps`: a frame that holds, with the numbers of parameters as before
* `Context.Leaves`: an exit that leads to a successor

## Main results

* `Context.perform_sound`: an instruction that goes on with the next one
* `Context.execute_sound`: any instruction
-/

namespace JvmTrim

/-! ## Computed values -/

namespace Context

variable {context : Context} {names : Naming} {frame frame' : Frame} {offset : Nat}
  {rest locals : List Cell} {word : Cell} {value : Value} {kind : Kind}

/-- What an instruction makes of a store: the frame afterwards holds, with the numbers of parameters
as before. -/
def Keeps (names : Naming) (frame : Frame) (store : Store) : Prop :=
  ∃ names' : Naming, frame.Holds names' store ∧ names.SameParameters names'

/-- **A computed value holds of a number** if what was computed does: a new value does because its
name is given to the number. -/
theorem computed_sound {result : Option Value} (hdetail : context.detail = .precise)
    (h : context.computed offset kind result frame = .ok (value, frame'))
    (hf : frame.Holds names ⟨rest, locals⟩) (hk : word.kind? = some kind)
    (hresult : ∀ v, result = some v → v.kind? = some kind ∧ v.Holds names word) :
    value.kind? = some kind ∧ ∃ names', value.Holds names' word ∧
      frame'.Holds names' ⟨rest, locals⟩ ∧ names.SameParameters names' := by
  unfold computed at h
  cases result with
  | some v =>
    obtain ⟨hv, hw⟩ := hresult v rfl
    obtain ⟨rfl, rfl⟩ := StateT.pure_eq_ok.mp h
    rw [hdetail]
    exact ⟨hv, names, hw, hf, .refl names⟩
  | none =>
    simp only [fresh, hdetail] at h
    obtain ⟨_, middle, hforget, h⟩ := StateT.bind_eq_ok.mp h
    obtain ⟨rfl, rfl⟩ := StateT.pure_eq_ok.mp h
    cases Transfer.forget_eq_ok hforget
    refine ⟨?_, names.assign (.instruction offset) word, ?_, hf.forget _ _,
      names.sameParameters_assign offset word⟩
    · cases kind <;> rfl
    · exact Value.holds_specific hk names _ _

theorem unary_sound {source target : Kind} {fold : Value → Except Failure (Option Value)}
    {a : Cell} (hdetail : context.detail = .precise)
    (h : context.unary offset source target fold frame = .ok ((), frame'))
    (hf : frame.Holds names ⟨a.pushed ++ rest, locals⟩) (ha : a.kind? = some source)
    (hw : word.kind? = some target)
    (hfold : ∀ v result, v.kind? = some source → v.Holds names a → fold v = .ok (some result) →
      result.kind? = some target ∧ result.Holds names word) :
    Keeps names frame' ⟨word.pushed ++ rest, locals⟩ := by
  obtain ⟨v, middle, hpop, hnext⟩ := StateT.bind_eq_ok.mp h
  obtain ⟨hv, hva, hm⟩ := hf.popKind hpop ha
  obtain ⟨result, _, hlift, hrest⟩ := StateT.bind_eq_ok.mp hnext
  obtain ⟨hresult, rfl⟩ := StateT.liftM_eq_ok.mp hlift
  obtain ⟨pushed, last, hcomputed, hpush⟩ := StateT.bind_eq_ok.mp hrest
  obtain ⟨hk, names', hp, hm', hsame⟩ := computed_sound hdetail hcomputed hm hw fun r hr =>
    hfold v r hv hva (hr ▸ hresult)
  exact ⟨names', hm'.push hpush hw hk hp, hsame⟩

theorem binary_sound {first second target : Kind}
    {fold : Value → Value → Except Failure (Option Value)} {a b : Cell}
    (hdetail : context.detail = .precise)
    (h : context.binary offset first second target fold frame = .ok ((), frame'))
    (hf : frame.Holds names ⟨b.pushed ++ (a.pushed ++ rest), locals⟩)
    (ha : a.kind? = some first) (hb : b.kind? = some second) (hw : word.kind? = some target)
    (hfold : ∀ v w result, v.kind? = some first → w.kind? = some second → v.Holds names a →
      w.Holds names b → fold v w = .ok (some result) →
      result.kind? = some target ∧ result.Holds names word) :
    Keeps names frame' ⟨word.pushed ++ rest, locals⟩ := by
  obtain ⟨w, middle, hpop, hnext⟩ := StateT.bind_eq_ok.mp h
  obtain ⟨hw', hwb, hm⟩ := hf.popKind hpop hb
  obtain ⟨v, middle', hpop', hfolded⟩ := StateT.bind_eq_ok.mp hnext
  obtain ⟨hv, hva, hm'⟩ := hm.popKind hpop' ha
  obtain ⟨result, _, hlift, hrest⟩ := StateT.bind_eq_ok.mp hfolded
  obtain ⟨hresult, rfl⟩ := StateT.liftM_eq_ok.mp hlift
  obtain ⟨pushed, last, hcomputed, hpush⟩ := StateT.bind_eq_ok.mp hrest
  obtain ⟨hk, names', hp, hlast, hsame⟩ := computed_sound hdetail hcomputed hm' hw fun r hr =>
    hfold v w r hv hw' hva hwb (hr ▸ hresult)
  exact ⟨names', hlast.push hpush hw hk hp, hsame⟩

theorem pushConstant_sound (hdetail : context.detail = .precise)
    (h : context.pushConstant offset value frame = .ok ((), frame'))
    (hf : frame.Holds names ⟨rest, locals⟩) (hk : word.kind? = some kind)
    (hv : value.kind? = some kind) (hw : value.Holds names word) :
    Keeps names frame' ⟨word.pushed ++ rest, locals⟩ := by
  rw [pushConstant, hdetail] at h
  exact ⟨names, hf.push h hk hv hw, .refl names⟩

/-- What holds of the variables after a number is stored. -/
theorem store_sound {slot : UInt16} (h : Transfer.store offset slot value frame = .ok ((), frame'))
    (hf : frame.Holds names ⟨rest, locals⟩) (hk : word.kind? = some kind)
    (hwide : value.isWide = decide (kind.size = 2)) (hw : value.Holds names word) :
    frame'.Holds names ⟨rest, Cell.stored locals slot.toNat word⟩ := by
  obtain ⟨hstack, hstore⟩ := Transfer.store_eq_ok h
  have hlt : slot.toNat < locals.length := by
    have hfit := (Locals.store_eq_ok hstore).1
    have hsize : slot.toNat < frame.locals.size := by split at hfit <;> omega
    obtain ⟨old, hold, -⟩ := hf.locals _ _ (Array.getElem?_eq_getElem hsize)
    exact (List.getElem?_eq_some_iff.mp hold).1
  refine ⟨by rw [hstack]; exact hf.stack, Locals.holds_store hstore hf.locals ?_ ?_ hw ?_⟩
  · cases word <;> simp [Cell.stored]
  · cases word <;> simp [Cell.stored, hlt]
  · intro i hne hnot
    cases word <;> cases hk
    · simp [Cell.stored, List.getElem?_set_ne (Ne.symm hne)]
    · have hne' : slot.toNat + 1 ≠ i := fun heq => hnot ⟨hwide, heq.symm⟩
      simp [Cell.stored, List.getElem?_set_ne (Ne.symm hne), List.getElem?_set_ne hne']

/-! ## Instructions -/

variable {store store' : Store} {instruction : Instruction}

theorem load_sound {slot : UInt16} {loaded : Cell} {middle : Frame}
    (h : Transfer.load slot frame = .ok (value, middle)) (hf : frame.Holds names store)
    (hread : store.locals[slot.toNat]? = some loaded) (hk : loaded.kind? = some kind) :
    middle = frame ∧ (loadedValue kind value).kind? = some kind ∧
      (loadedValue kind value).Holds names loaded := by
  obtain ⟨rfl, found, hfound, rfl⟩ := Transfer.load_eq_ok h
  obtain ⟨word, hword, hholds⟩ := hf.locals _ _ hfound
  rw [hread] at hword
  cases hword
  unfold loadedValue
  refine ⟨rfl, ?_⟩
  split
  · rename_i hcond
    have hkind : found.value.kind? = some kind := by
      rcases Bool.or_eq_true_iff.mp hcond with hkind | href
      · exact of_decide_eq_true hkind
      · cases loaded <;> cases hk <;> simp at href
    exact ⟨hkind, hholds⟩
  · exact ⟨by cases kind <;> rfl, Value.holds_unknown hk⟩

/-- A number that is read from a variable is pushed. -/
theorem pushLoaded_sound {slot : UInt16} {loaded : Cell}
    (h : (do
      let value ← Transfer.load slot
      Transfer.push offset (loadedValue kind value) : Transfer Unit) frame = .ok ((), frame'))
    (hf : frame.Holds names store) (hread : store.locals[slot.toNat]? = some loaded)
    (hk : loaded.kind? = some kind) :
    Keeps names frame' ⟨loaded.pushed ++ store.stack, store.locals⟩ := by
  obtain ⟨v, middle, hload, hpush⟩ := StateT.bind_eq_ok.mp h
  obtain ⟨rfl, hkind, hholds⟩ := load_sound hload hf hread hk
  exact ⟨names, hf.push hpush hk hkind hholds, .refl names⟩

/-- Two ints are taken, and the fold knows what the machine makes of them. -/
theorem takenInts_sound {target : Kind} {made : Int32 → Int32 → Cell}
    {fold : Value → Value → Except Failure (Option Value)} (hdetail : context.detail = .precise)
    (h : context.binary offset .int .int target fold frame = .ok ((), frame'))
    (hm : (do
      let b ← Machine.popInt
      let a ← Machine.popInt
      Machine.push (made a b).pushed : Machine Unit) store = .ok ((), store'))
    (hf : frame.Holds names store) (hmade : ∀ a b, (made a b).kind? = some target)
    (hfold : ∀ {a b : Int32} {v w result : Value}, v.kind? = some .int → w.kind? = some .int →
      v.Holds names (.int a) → w.Holds names (.int b) → fold v w = .ok (some result) →
      result.kind? = some target ∧ result.Holds names (made a b)) :
    Keeps names frame' store' := by
  obtain ⟨b, store₁, hb, hm₁⟩ := StateT.bind_eq_ok.mp hm
  obtain ⟨a, store₂, ha, hm₂⟩ := StateT.bind_eq_ok.mp hm₁
  cases Machine.popInt_eq_ok hb
  cases Machine.popInt_eq_ok ha
  cases Machine.push_eq_ok hm₂
  exact binary_sound hdetail h hf rfl rfl (hmade a b) fun _ _ _ hv hw hva hwb hr =>
    hfold hv hw hva hwb hr

/-- Two longs are taken, and the fold knows what the machine makes of them. -/
theorem takenLongs_sound {target : Kind} {made : Int64 → Int64 → Cell}
    {fold : Value → Value → Except Failure (Option Value)} (hdetail : context.detail = .precise)
    (h : context.binary offset .long .long target fold frame = .ok ((), frame'))
    (hm : (do
      let b ← Machine.popLong
      let a ← Machine.popLong
      Machine.push (made a b).pushed : Machine Unit) store = .ok ((), store'))
    (hf : frame.Holds names store) (hmade : ∀ a b, (made a b).kind? = some target)
    (hfold : ∀ {a b : Int64} {v w result : Value}, v.kind? = some .long → w.kind? = some .long →
      v.Holds names (.long a) → w.Holds names (.long b) → fold v w = .ok (some result) →
      result.kind? = some target ∧ result.Holds names (made a b)) :
    Keeps names frame' store' := by
  obtain ⟨b, store₁, hb, hm₁⟩ := StateT.bind_eq_ok.mp hm
  obtain ⟨a, store₂, ha, hm₂⟩ := StateT.bind_eq_ok.mp hm₁
  cases Machine.popLong_eq_ok hb
  cases Machine.popLong_eq_ok ha
  cases Machine.push_eq_ok hm₂
  exact binary_sound hdetail h hf rfl rfl (hmade a b) fun _ _ _ hv hw hva hwb hr =>
    hfold hv hw hva hwb hr

theorem arithmeticInt_sound {operator : Arithmetic} (hdetail : context.detail = .precise)
    (h : context.binary offset .int .int .int (foldArithmetic operator .int) frame = .ok ((), frame'))
    (hm : Machine.arithmeticInt operator store = .ok ((), store'))
    (hf : frame.Holds names store) : Keeps names frame' store' := by
  obtain ⟨b, store₁, hb, hm₁⟩ := StateT.bind_eq_ok.mp hm
  obtain ⟨a, store₂, ha, hm₂⟩ := StateT.bind_eq_ok.mp hm₁
  cases Machine.popInt_eq_ok hb
  cases Machine.popInt_eq_ok ha
  obtain ⟨c, hc, hpush⟩ : ∃ c, foldInt operator a b = some c ∧
      Machine.pushInt c store₂ = .ok ((), store') := by
    cases operator with
    | add => exact ⟨_, rfl, hm₂⟩
    | sub => exact ⟨_, rfl, hm₂⟩
    | mul => exact ⟨_, rfl, hm₂⟩
    | div | rem =>
      simp only [foldInt] at hm₂ ⊢
      split at hm₂
      · cases hm₂
      · rename_i hne
        exact ⟨_, if_neg hne, hm₂⟩
  cases Machine.push_eq_ok hpush
  exact binary_sound hdetail h hf rfl rfl rfl fun v w r hv hw hva hwb hr =>
    Value.holds_ofInt (Value.foldArithmetic_int hc hv hw hva hwb hr)

theorem arithmeticLong_sound {operator : Arithmetic} (hdetail : context.detail = .precise)
    (h : context.binary offset .long .long .long (foldArithmetic operator .long) frame
      = .ok ((), frame'))
    (hm : Machine.arithmeticLong operator store = .ok ((), store'))
    (hf : frame.Holds names store) : Keeps names frame' store' := by
  obtain ⟨b, store₁, hb, hm₁⟩ := StateT.bind_eq_ok.mp hm
  obtain ⟨a, store₂, ha, hm₂⟩ := StateT.bind_eq_ok.mp hm₁
  cases Machine.popLong_eq_ok hb
  cases Machine.popLong_eq_ok ha
  obtain ⟨c, hc, hpush⟩ : ∃ c, foldLong operator a b = some c ∧
      Machine.pushLong c store₂ = .ok ((), store') := by
    cases operator with
    | add => exact ⟨_, rfl, hm₂⟩
    | sub => exact ⟨_, rfl, hm₂⟩
    | mul => exact ⟨_, rfl, hm₂⟩
    | div => cases hm₂
    | rem => cases hm₂
  cases Machine.push_eq_ok hpush
  exact binary_sound hdetail h hf rfl rfl rfl fun v w r hv hw hva hwb hr =>
    Value.holds_ofLong (Value.foldArithmetic_long hc hv hw hva hwb hr)

theorem loadConstant_sound (hdetail : context.detail = .precise)
    (h : context.loadConstant offset instruction frame = .ok ((), frame'))
    (hm : Machine.loadConstant context.pool instruction store = .ok ((), store'))
    (hf : frame.Holds names store) : Keeps names frame' store' := by
  obtain ⟨index, _, hlift, hget⟩ := StateT.bind_eq_ok.mp h
  obtain ⟨hindex, rfl⟩ := StateT.liftM_eq_ok.mp hlift
  obtain ⟨constant, _, hlift', hpush⟩ := StateT.bind_eq_ok.mp hget
  obtain ⟨hconstant, rfl⟩ := StateT.liftM_eq_ok.mp hlift'
  unfold Machine.loadConstant at hm
  cases hoperand : instruction.operand with
  | constant index' =>
    rw [orDefect_eq_ok, Instruction.constantIndex?, hoperand] at hindex
    cases hindex
    simp only [hoperand, hconstant] at hm
    cases constant <;> simp only at hpush hm <;> try cases hm
    · exact pushConstant_sound hdetail hpush hf rfl rfl rfl
    · exact pushConstant_sound hdetail hpush hf rfl rfl rfl
  | _ =>
    simp only [hoperand] at hm
    cases hm

theorem increment_sound (hdetail : context.detail = .precise)
    (h : context.increment offset instruction frame = .ok ((), frame'))
    (hm : (match instruction.operand with
      | .increment slot delta => do
        Machine.write slot.toNat (.int ((← Machine.readInt slot) + delta.toInt32))
      | _ => Machine.reject : Machine Unit) store = .ok ((), store'))
    (hf : frame.Holds names store) : Keeps names frame' store' := by
  unfold increment at h
  cases hoperand : instruction.operand with
  | increment slot delta =>
    simp only [hoperand] at h hm
    obtain ⟨current, middle, hload, hnext⟩ := StateT.bind_eq_ok.mp h
    obtain ⟨computed, last, hcomputed, hstore⟩ := StateT.bind_eq_ok.mp hnext
    obtain ⟨number, _, hread, hm₁⟩ := StateT.bind_eq_ok.mp hm
    obtain ⟨rfl, hread⟩ := Machine.readInt_eq_ok hread
    obtain ⟨-, rfl⟩ := Machine.write_eq_ok hm₁
    obtain ⟨rfl, found, hfound, rfl⟩ := Transfer.load_eq_ok hload
    obtain ⟨word, hword, hholds⟩ := hf.locals _ _ hfound
    rw [hread] at hword
    cases hword
    have hk : (Cell.int (number + delta.toInt32)).kind? = some .int := rfl
    have hresult (v : Value)
        (hv : (found.value.int?.map fun x => Value.ofInt (x + delta.toInt32)) = some v) :
        v.kind? = some .int ∧ v.Holds names (.int (number + delta.toInt32)) := by
      obtain ⟨known, hknown, rfl⟩ := Option.map_eq_some_iff.mp hv
      cases hvalue : found.value with
      | int a =>
        rw [hvalue] at hknown hholds
        cases Abstract.eq_of_particular? hholds hknown
        exact ⟨rfl, rfl⟩
      | _ =>
        rw [hvalue] at hknown
        cases hknown
    obtain ⟨hkind, names', hv, hlast, hsame⟩ := computed_sound hdetail hcomputed hf hk hresult
    exact ⟨names', store_sound hstore hlast hk (Value.isWide_of_kind? hkind) hv, hsame⟩
  | _ =>
    simp only [hoperand] at hm
    cases hm

/-- Only an instruction that goes on with the next one is performed without an outcome. -/
theorem fallsThrough_of_perform {pool : ConstantPool}
    (hm : Machine.perform pool instruction store = .ok ((), store')) :
    instruction.fallsThrough = true := by
  unfold Machine.perform at hm
  unfold Instruction.fallsThrough Instruction.flow
  cases hop : instruction.operation with
  | returnValue kind =>
    cases kind <;> simp only [hop] at hm
    · obtain ⟨a, store₁, -, hm₁⟩ := StateT.bind_eq_ok.mp hm
      cases hm₁
    · obtain ⟨a, store₁, -, hm₁⟩ := StateT.bind_eq_ok.mp hm
      cases hm₁
    all_goals cases hm
  | returnVoid | raise | jump | subroutine | ret | switch =>
    simp only [hop] at hm
    cases hm
  | _ => rfl

/-- Executing an instruction that goes on with the next one keeps what holds. -/
theorem perform_sound (hdetail : context.detail = .precise)
    (h : context.perform offset instruction frame = .ok ((), frame'))
    (hm : Machine.perform context.pool instruction store = .ok ((), store'))
    (hf : frame.Holds names store) : Keeps names frame' store' := by
  have hfalls := fallsThrough_of_perform hm
  unfold perform at h
  unfold Machine.perform at hm
  cases hop : instruction.operation with
  | nop =>
    simp only [hop] at h hm
    cases h
    cases hm
    exact ⟨names, hf, .refl names⟩
  | pushInt value | pushLong value =>
    simp only [hop] at h hm
    cases Machine.push_eq_ok hm
    exact pushConstant_sound hdetail h hf rfl rfl rfl
  | pushImmediate =>
    cases hoperand : instruction.operand with
    | byte value | short value =>
      simp only [hop, hoperand] at h hm
      cases Machine.push_eq_ok hm
      exact pushConstant_sound hdetail h hf rfl rfl rfl
    | _ =>
      simp only [hop, hoperand] at hm
      cases hm
  | loadConstant wide =>
    simp only [hop] at h hm
    exact loadConstant_sound hdetail h hm hf
  | load kind slot =>
    cases kind with
    | int =>
      simp only [hop] at h hm
      obtain ⟨number, _, hread, hm₁⟩ := StateT.bind_eq_ok.mp hm
      obtain ⟨rfl, hread⟩ := Machine.readInt_eq_ok hread
      cases Machine.push_eq_ok hm₁
      exact pushLoaded_sound h hf hread rfl
    | long =>
      simp only [hop] at h hm
      obtain ⟨number, _, hread, hm₁⟩ := StateT.bind_eq_ok.mp hm
      obtain ⟨rfl, hread⟩ := Machine.readLong_eq_ok hread
      cases Machine.push_eq_ok hm₁
      exact pushLoaded_sound h hf hread rfl
    | _ =>
      simp only [hop] at hm
      cases hm
  | store kind slot =>
    cases kind with
    | int =>
      simp only [hop] at h hm
      obtain ⟨v, middle, hpop, hstore⟩ := StateT.bind_eq_ok.mp h
      obtain ⟨number, store₁, hpop', hm₁⟩ := StateT.bind_eq_ok.mp hm
      cases Machine.popInt_eq_ok hpop'
      obtain ⟨hholds, hmiddle⟩ := hf.pop hpop rfl
      obtain ⟨-, rfl⟩ := Machine.write_eq_ok hm₁
      have hk : (Cell.int number).kind? = some .int := rfl
      have hwide : v.isWide = decide (Kind.int.size = 2) := by
        cases v <;> first | rfl | exact hholds.elim
      exact ⟨names, store_sound hstore hmiddle hk hwide hholds, .refl names⟩
    | long =>
      simp only [hop] at h hm
      obtain ⟨v, middle, hpop, hstore⟩ := StateT.bind_eq_ok.mp h
      obtain ⟨number, store₁, hpop', hm₁⟩ := StateT.bind_eq_ok.mp hm
      obtain ⟨_, store₂, hwrite, hm₂⟩ := StateT.bind_eq_ok.mp hm₁
      cases Machine.popLong_eq_ok hpop'
      obtain ⟨hholds, hmiddle⟩ := hf.pop hpop rfl
      obtain ⟨-, rfl⟩ := Machine.write_eq_ok hwrite
      obtain ⟨-, rfl⟩ := Machine.write_eq_ok hm₂
      have hk : (Cell.long number).kind? = some .long := rfl
      have hwide : (storedValue .long v).isWide = decide (Kind.long.size = 2) := by
        cases v <;> rfl
      have hstored : (storedValue .long v).Holds names (.long number) := by
        cases v <;> first | exact hholds | trivial
      exact ⟨names, store_sound hstore hmiddle hk hwide hstored, .refl names⟩
    | _ =>
      simp only [hop] at hm
      cases hm
  | shuffle move =>
    simp only [hop] at h hm
    obtain ⟨copies, hc, hview, hlocals⟩ := Transfer.shuffle_eq_ok h
    obtain ⟨copies', hc', rfl⟩ := Machine.shuffle_eq_ok hm
    refine ⟨names, ⟨?_, by rw [hlocals]; exact hf.locals⟩, .refl names⟩
    rw [hview]
    refine List.rel_append ?_ (List.forall₂_drop _ hf.stack)
    exact List.forall₂_map_left_iff.mpr (Shuffle.forall₂_copied? hf.stack hc hc')
  | arithmetic operator kind =>
    cases kind with
    | int =>
      simp only [hop] at h hm
      exact arithmeticInt_sound hdetail h hm hf
    | long =>
      simp only [hop] at h hm
      exact arithmeticLong_sound hdetail h hm hf
    | float =>
      simp only [hop] at hm
      cases hm
    | double =>
      simp only [hop] at hm
      cases hm
  | shift operator kind =>
    cases kind with
    | int =>
      simp only [hop] at h hm
      exact takenInts_sound hdetail h hm hf (fun _ _ => rfl) fun hv hw hva hwb hr =>
        Value.holds_ofInt (Value.foldShift_int hv hw hva hwb hr)
    | long =>
      simp only [hop] at hm
      cases hm
  | bitwise operator kind =>
    cases kind with
    | int =>
      simp only [hop] at h hm
      exact takenInts_sound hdetail h hm hf (fun _ _ => rfl) fun hv hw hva hwb hr =>
        Value.holds_ofInt (Value.foldBitwise_int hv hw hva hwb hr)
    | long =>
      simp only [hop] at h hm
      exact takenLongs_sound hdetail h hm hf (fun _ _ => rfl) fun hv hw hva hwb hr =>
        Value.holds_ofLong (Value.foldBitwise_long hv hw hva hwb hr)
  | compareLong =>
    simp only [hop] at h hm
    exact takenLongs_sound hdetail h hm hf (fun _ _ => rfl) fun hv hw hva hwb hr =>
      Value.holds_ofInt (Value.foldCompareLong_eq hv hw hva hwb hr)
  | negate kind =>
    cases kind with
    | int =>
      simp only [hop] at h hm
      obtain ⟨a, store₁, ha, hm₁⟩ := StateT.bind_eq_ok.mp hm
      cases Machine.popInt_eq_ok ha
      cases Machine.push_eq_ok hm₁
      exact unary_sound hdetail h hf rfl rfl fun v r hv hva hr => Value.holds_ofInt
        (Value.eq_of_fold₁ Value.expectInt (fun x => .ofInt (-x)) (Value.expectInt_eq_ok hv hva) hr)
    | _ =>
      simp only [hop] at hm
      cases hm
  | convert source target =>
    cases source with
    | int =>
      cases target with
      | long =>
        simp only [hop] at h hm
        obtain ⟨a, store₁, ha, hm₁⟩ := StateT.bind_eq_ok.mp hm
        cases Machine.popInt_eq_ok ha
        cases Machine.push_eq_ok hm₁
        refine unary_sound hdetail h hf rfl rfl fun v r hv hva hr => Value.holds_ofLong ?_
        have hfold := Value.eq_of_fold₁ Value.expectInt (fun x => Value.ofInteger .long x.toInt)
          (Value.expectInt_eq_ok hv hva) hr
        rw [hfold, Value.ofInteger, Int64.ofInt_int32ToInt]
      | _ =>
        simp only [hop] at hm
        cases hm
    | long =>
      cases target with
      | int =>
        simp only [hop] at h hm
        obtain ⟨a, store₁, ha, hm₁⟩ := StateT.bind_eq_ok.mp hm
        cases Machine.popLong_eq_ok ha
        cases Machine.push_eq_ok hm₁
        refine unary_sound hdetail h hf rfl rfl fun v r hv hva hr => Value.holds_ofInt ?_
        have hfold := Value.eq_of_fold₁ Value.expectLong (fun x => Value.ofInteger .int x.toInt)
          (Value.expectLong_eq_ok hv hva) hr
        rw [hfold, Value.ofInteger, Int32.ofInt_int64ToInt]
      | _ =>
        simp only [hop] at hm
        cases hm
    | _ =>
      simp only [hop] at hm
      cases hm
  | increment =>
    simp only [hop] at h hm
    exact increment_sound hdetail h hm hf
  | returnValue kind =>
    unfold Instruction.fallsThrough Instruction.flow at hfalls
    rw [hop] at hfalls
    cases hfalls
  | _ =>
    simp only [hop] at hm
    cases hm

/-! ## Exits -/

theorem exists_target {targets : List Nat} {place : Nat} {displacement : Int32}
    (h : instruction.branchTargets offset = .ok targets)
    (hd : instruction.displacements[place]? = some displacement) :
    ∃ target, Instruction.target offset displacement = .ok target ∧
      targets[place]? = some target := by
  have hforall := forall₂_of_mapM h
  have hlt : place < targets.length := by
    rw [← hforall.length_eq]
    exact (List.getElem?_eq_some_iff.mp hd).1
  exact ⟨targets[place], rel_of_forall₂ hforall hd (List.getElem?_eq_getElem hlt),
    List.getElem?_eq_getElem hlt⟩

theorem firstTarget_eq_ok {missing : Defect} {target : Nat}
    (h : firstTarget offset instruction missing = .ok target) :
    ∃ targets, instruction.branchTargets offset = .ok targets ∧ targets[0]? = some target := by
  obtain ⟨targets, ht, h⟩ := Except.bind_eq_ok.mp h
  rw [orDefect_eq_ok, List.head?_eq_getElem?] at h
  exact ⟨targets, ht, h⟩

theorem mem_ascending {offsets : List Nat} {x : Nat} : x ∈ ascending offsets ↔ x ∈ offsets := by
  have hfold (set : OffsetSet) :
      x ∈ (offsets.foldl OrderedSet.insert set).elements ↔ x ∈ offsets ∨ x ∈ set.elements := by
    induction offsets generalizing set with
    | nil => simp
    | cons head tail ih =>
      rw [List.foldl_cons, ih, Progress.mem_insert_offset, List.mem_cons]
      tauto
  exact (hfold OrderedSet.empty).trans (by simp)

theorem switchTarget_eq (operand : Operand) (targets : List Nat) (key : Int32) :
    switchTarget operand targets key =
      orFail (.fault .outOfRange) targets[Machine.choose operand key]? := by
  unfold switchTarget Machine.choose
  cases operand with
  | table default low high displacements =>
    simp only [Int32.le_iff_toInt_le]
  | lookup default cases =>
    simp only
    cases cases.findIdx? (·.1 == key) <;> rfl
  | _ => rfl

/-- Whether an exit of the instruction at `offset` leads to one of some successors. -/
def Leaves (instruction : Instruction) (offset next : Nat) (exit : Option Nat)
    (successors : List Nat) : Prop :=
  (exit = none → next ∈ successors) ∧ ∀ place displacement, exit = some place →
    instruction.displacements[place]? = some displacement →
    ∃ target, Instruction.target offset displacement = .ok target ∧ target ∈ successors

theorem leaves_of_branchTargets {targets : List Nat} {place next : Nat}
    (h : instruction.branchTargets offset = .ok targets) {successors : List Nat}
    (hmem : ∀ target, targets[place]? = some target → target ∈ successors) :
    Leaves instruction offset next (some place) successors := by
  refine ⟨by simp, fun place' displacement hplace hd => ?_⟩
  cases hplace
  obtain ⟨target, ht, hp⟩ := exists_target h hd
  exact ⟨target, ht, hmem target hp⟩

/-- The exit of a conditional branch is among the successors for what is known of its outcome. -/
theorem leaves_of_decision {decision : Option Bool} {taken : Bool} {target next : Nat}
    (htarget : firstTarget offset instruction (.missingTarget offset) = .ok target)
    (hdecision : ∀ known, decision = some known → known = taken) :
    Leaves instruction offset next (if taken then some 0 else none)
      (branchSuccessors target next decision) := by
  obtain ⟨targets, ht, hfirst⟩ := firstTarget_eq_ok htarget
  obtain ⟨htaken, hpassed⟩ := mem_branchSuccessors_none target next
  cases taken with
  | false =>
    refine ⟨fun _ => ?_, by simp⟩
    cases decision with
    | none => exact hpassed
    | some known =>
      cases hdecision known rfl
      exact List.mem_singleton_self next
  | true =>
    refine leaves_of_branchTargets ht fun target' htarget' => ?_
    cases hfirst.symm.trans htarget'
    cases decision with
    | none => exact htaken
    | some known =>
      cases hdecision known rfl
      exact List.mem_singleton_self target

theorem condition_branchZero {comparison : Comparison} {decision : Option Bool} {a : Int32}
    (h : condition (.branchZero comparison) frame = .ok (decision, frame'))
    (hf : frame.Holds names ⟨(Cell.int a).pushed ++ rest, locals⟩) :
    frame'.Holds names ⟨rest, locals⟩ ∧
      ∀ known, decision = some known → known = Machine.compares comparison a 0 := by
  obtain ⟨v, middle, hpop, hnext⟩ := StateT.bind_eq_ok.mp h
  obtain ⟨hv, hva, hmiddle⟩ := hf.popKind hpop rfl
  obtain ⟨constant, _, hlift, hrest⟩ := StateT.bind_eq_ok.mp hnext
  obtain ⟨hconstant, rfl⟩ := StateT.liftM_eq_ok.mp hlift
  obtain ⟨rfl, rfl⟩ := StateT.pure_eq_ok.mp hrest
  refine ⟨hmiddle, fun known hknown => ?_⟩
  obtain ⟨constant', hc, heq⟩ := Value.expectInt_eq_ok hv hva
  cases hc.symm.trans hconstant
  obtain ⟨number, hn, rfl⟩ := Option.map_eq_some_iff.mp hknown
  rw [← heq number hn, Machine.holds_eq_compares]

theorem condition_branchInt {comparison : Comparison} {decision : Option Bool} {a b : Int32}
    (h : condition (.branchInt comparison) frame = .ok (decision, frame'))
    (hf : frame.Holds names ⟨(Cell.int b).pushed ++ ((Cell.int a).pushed ++ rest), locals⟩) :
    frame'.Holds names ⟨rest, locals⟩ ∧
      ∀ known, decision = some known → known = Machine.compares comparison a b := by
  obtain ⟨w, middle, hpop, hnext⟩ := StateT.bind_eq_ok.mp h
  obtain ⟨hw, hwb, hmiddle⟩ := hf.popKind hpop rfl
  obtain ⟨v, last, hpop', hrest⟩ := StateT.bind_eq_ok.mp hnext
  obtain ⟨hv, hva, hlast⟩ := hmiddle.popKind hpop' rfl
  obtain ⟨x, _, hlift, hrest'⟩ := StateT.bind_eq_ok.mp hrest
  obtain ⟨hx, rfl⟩ := StateT.liftM_eq_ok.mp hlift
  obtain ⟨y, _, hlift', hend⟩ := StateT.bind_eq_ok.mp hrest'
  obtain ⟨hy, rfl⟩ := StateT.liftM_eq_ok.mp hlift'
  obtain ⟨x', hx', hxa⟩ := Value.expectInt_eq_ok hv hva
  obtain ⟨y', hy', hyb⟩ := Value.expectInt_eq_ok hw hwb
  cases hx'.symm.trans hx
  cases hy'.symm.trans hy
  have hsame (known : Bool)
      (hk : (if v.sameIdentity w then some comparison.isReflexive else none) = some known) :
      known = Machine.compares comparison a b := by
    split at hk
    · rename_i hs
      cases hk
      cases Value.eq_of_sameIdentity hs hva hwb
      exact (Machine.compares_self comparison a).symm
    · cases hk
  cases x with
  | none =>
    obtain ⟨rfl, rfl⟩ := StateT.pure_eq_ok.mp hend
    exact ⟨hlast, hsame⟩
  | some x =>
    cases y with
    | none =>
      obtain ⟨rfl, rfl⟩ := StateT.pure_eq_ok.mp hend
      exact ⟨hlast, hsame⟩
    | some y =>
      obtain ⟨rfl, rfl⟩ := StateT.pure_eq_ok.mp hend
      refine ⟨hlast, fun known hk => ?_⟩
      cases hk
      rw [hxa x rfl, hyb y rfl, Machine.holds_eq_compares]

/-- **Executing an instruction keeps what holds**, and control goes on at one of its successors. -/
theorem execute_sound {next : Nat} {step : Step} {exit : Option Nat}
    (hdetail : context.detail = .precise)
    (h : context.execute offset next instruction frame = .ok step)
    (hm : Machine.execute context.pool instruction store = .ok (exit, store'))
    (hf : frame.Holds names store) :
    Keeps names step.frame store' ∧ Leaves instruction offset next exit step.successors := by
  unfold Machine.execute at hm
  cases hop : instruction.operation with
  | branchZero comparison =>
    simp only [hop] at hm
    obtain ⟨decision, target, hcondition, htarget, hsuccessors⟩ :=
      branch_of_execute h (congrArg Operation.flow hop)
    obtain ⟨a, store₁, hpop, hm₁⟩ := StateT.bind_eq_ok.mp hm
    obtain ⟨rfl, rfl⟩ := StateT.pure_eq_ok.mp hm₁
    cases Machine.popInt_eq_ok hpop
    rw [hop] at hcondition
    obtain ⟨hframe, hdecision⟩ := condition_branchZero hcondition hf
    rw [hsuccessors]
    exact ⟨⟨names, hframe, .refl names⟩, leaves_of_decision htarget hdecision⟩
  | branchInt comparison =>
    simp only [hop] at hm
    obtain ⟨decision, target, hcondition, htarget, hsuccessors⟩ :=
      branch_of_execute h (congrArg Operation.flow hop)
    obtain ⟨b, store₁, hpop, hm₁⟩ := StateT.bind_eq_ok.mp hm
    obtain ⟨a, store₂, hpop', hm₂⟩ := StateT.bind_eq_ok.mp hm₁
    obtain ⟨rfl, rfl⟩ := StateT.pure_eq_ok.mp hm₂
    cases Machine.popInt_eq_ok hpop
    cases Machine.popInt_eq_ok hpop'
    rw [hop] at hcondition
    obtain ⟨hframe, hdecision⟩ := condition_branchInt hcondition hf
    rw [hsuccessors]
    exact ⟨⟨names, hframe, .refl names⟩, leaves_of_decision htarget hdecision⟩
  | jump =>
    simp only [hop] at hm
    obtain ⟨htargets, hframe⟩ := jump_of_execute h hop
    obtain ⟨rfl, rfl⟩ := StateT.pure_eq_ok.mp hm
    exact ⟨⟨names, hframe ▸ hf, .refl names⟩, leaves_of_branchTargets htargets fun target ht =>
      List.mem_of_getElem? ht⟩
  | switch =>
    simp only [hop] at hm
    obtain ⟨v, key, targets, hpop, hkey, htargets, hsuccessors⟩ :=
      switch_of_execute h (congrArg Operation.flow hop)
    obtain ⟨a, store₁, hpop', hm₁⟩ := StateT.bind_eq_ok.mp hm
    obtain ⟨rfl, rfl⟩ := StateT.pure_eq_ok.mp hm₁
    cases Machine.popInt_eq_ok hpop'
    obtain ⟨hv, hva, hframe⟩ := hf.popKind hpop rfl
    obtain ⟨key', hkey', hknown⟩ := Value.expectInt_eq_ok hv hva
    cases hkey'.symm.trans hkey
    refine ⟨⟨names, hframe, .refl names⟩, leaves_of_branchTargets htargets fun target ht => ?_⟩
    rcases hsuccessors with ⟨-, hall⟩ | ⟨number, chosen, rfl, hchosen, honly⟩
    · rw [hall]
      exact mem_ascending.mpr (List.mem_of_getElem? ht)
    · cases hknown number rfl
      rw [switchTarget_eq, orFail_eq_ok] at hchosen
      cases hchosen.symm.trans ht
      rw [honly]
      exact List.mem_singleton_self _
  | branchReference equal | branchNull null | subroutine | ret | invoke mode =>
    simp only [hop] at hm
    obtain ⟨_, _, hperform, -⟩ := StateT.bind_eq_ok.mp hm
    unfold Machine.perform at hperform
    simp only [hop] at hperform
    cases hperform
  | _ =>
    simp only [hop] at hm
    obtain ⟨_, store₁, hperform, hend⟩ := StateT.bind_eq_ok.mp hm
    obtain ⟨rfl, rfl⟩ := StateT.pure_eq_ok.mp hend
    cases executed_of_execute h with
    | performs _ _ hperform' =>
      refine ⟨perform_sound hdetail hperform' hperform hf, fun _ => ?_, by simp⟩
      rw [fallsThrough_of_perform hperform]
      exact List.mem_singleton_self _
    | branch hflow => cases (congrArg Operation.flow hop).symm.trans hflow
    | jump hop' | chosen hop' | switch hop' | subroutine hop' | ret hop' | call hop' =>
      cases hop.symm.trans hop'

end Context

end JvmTrim
