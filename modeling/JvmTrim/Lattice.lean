import JvmTrim.Frame

/-!
# Joins

Every part of a frame can be joined with another part of its kind, to what holds of both. An
evaluation also needs to know whether joining something in has changed what was there before: only
then are there consequences to follow.

## Main definitions

* `JoinSemilattice`: what can be joined
* `joinWith`: a join, and whether it is a change
* `Stack.joinWith`: the same for stacks, which need the same height
-/

namespace JvmTrim

/-- What can be joined. -/
class JoinSemilattice (α : Type) where
  /-- What holds of both. -/
  join : α → α → α

/-- Joins `new` into `old`: the result, and whether it is not what was there before. -/
def joinWith {α : Type} [JoinSemilattice α] [DecidableEq α] (old new : α) : α × Bool :=
  let joined := JoinSemilattice.join old new
  if joined = old then (old, false) else (joined, true)

instance {α : Type} {key : α → Nat} : JoinSemilattice (OrderedSet key) := ⟨OrderedSet.union⟩

instance : JoinSemilattice Value := ⟨Value.join⟩

instance : JoinSemilattice Slot := ⟨Slot.join⟩

instance : JoinSemilattice Locals := ⟨Locals.join⟩

/-- Joins `new` into `old`: the result, and whether it is not what was there before. -/
def Stack.joinWith (old new : Stack) : Except Failure (Stack × Bool) := do
  let joined ← old.join new
  return (joined, joined != old)

end JvmTrim
