import JvmTrim.Failure

/-!
# Changes that can fail half-way

A `Change` works on a state and can fail; what it did to the state before it failed stays. A caller
that wants all or nothing has to take the earlier state back itself.

## Main definitions

* `Change`
* `Change.onFirst`, `Change.eachOf`: changes of a part of the state, and of all members of a list
-/

namespace JvmTrim

/-- A computation that changes a state and can fail. -/
abbrev Change (σ : Type) := ExceptT Failure (StateM σ)

namespace Change

variable {γ σ α : Type}

/-- Applies a change to a state. -/
def apply (change : Change σ α) (state : σ) : Except Failure α × σ :=
  (ExceptT.run change).run state

/-- The change with a given effect. -/
def ofEffect (effect : σ → Except Failure α × σ) : Change σ α := ExceptT.mk effect

/-- A change of the first part of a pair. -/
def onFirst (change : Change γ α) : Change (γ × σ) α :=
  ofEffect fun (shared, rest) =>
    let (result, shared) := change.apply shared
    (result, shared, rest)

/-- Changes the members of a list in order, with a state that all of them share; a failure ends it. -/
def eachOf (change : Change (γ × σ) Unit) : γ → List σ → Except Failure Unit × γ × List σ
  | shared, [] => (.ok (), shared, [])
  | shared, head :: tail =>
    match change.apply (shared, head) with
    | (.error failure, shared, head) => (.error failure, shared, head :: tail)
    | (.ok (), shared, head) =>
      let (result, shared, tail) := eachOf change shared tail
      (result, shared, head :: tail)

end Change

end JvmTrim
