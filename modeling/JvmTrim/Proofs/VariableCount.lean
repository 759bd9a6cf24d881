import JvmTrim.Proofs.Invariance

/-!
# The number of variables

A method is entered with as many variables as it declares, and no instruction changes how many there
are: a store replaces slots, and forgetting a name replaces values.

## Main results

* `Context.size_locals_execute`: an instruction leaves the number of variables as it is
* `size_entryLocals`: a method is entered with as many variables as it declares
-/

namespace JvmTrim

theorem size_ofSize (size : Nat) : (Locals.ofSize size).size = size := by
  simp [Locals.ofSize, Locals.size]

/-- How many variables there are does not change. -/
theorem frameInvariant_size (size : Nat) :
    FrameInvariant (fun locals => locals.size = size) (fun _ => True) (fun _ => True) where
  top := trivial
  ofKind _ := trivial
  returnAddress _ := trivial
  join _ _ := trivial
  entry := trivial
  own _ := trivial
  union _ _ := trivial
  load _ _ := trivial
  store hl _ _ hs := (Locals.store_eq_ok hs).2.1.trans hl
  forget _ hl := by simpa [Locals.size, Locals.forget] using hl
  joinLocals ha hb := by
    simp only [Locals.size, Locals.join, Array.size_zipWith] at ha hb ⊢
    omega

/-- **No instruction changes the number of variables.** -/
theorem Context.size_locals_execute (context : Context) (offset : Nat) {next : Nat}
    {instruction : Instruction} {frame : Frame} {step : Step}
    (h : context.execute offset next instruction frame = .ok step) :
    step.frame.locals.size = frame.locals.size := by
  have hmeets : frame.Meets (fun locals => locals.size = frame.locals.size) (fun _ => True)
      (fun _ => True) := ⟨rfl, fun _ _ => ⟨trivial, trivial⟩⟩
  exact (hmeets.execute (frameInvariant_size _) h).locals

/-- **A method is entered with as many variables as it declares.** -/
theorem size_entryLocals {options : EvaluationOptions} {owner : String} {method : Method}
    {maxLocals : UInt16} {locals : Locals}
    (h : entryLocals options owner method maxLocals = .ok locals) :
    locals.size = maxLocals.toNat :=
  (frameInvariant_size maxLocals.toNat).entryLocals (size_ofSize _) h

end JvmTrim
