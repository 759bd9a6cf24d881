import JvmTrim.ClassFile.Class

/-!
# Class pools with an index

Looking for a class by going through a pool takes as long as the pool is large. A pool that is still
being put together keeps an index instead: the slot of every name. A class that takes the place of
another one leaves the index as it is. A class that is removed leaves a gap, which the classes
behind it close by moving up, and the index has to follow.

Slots are trusted: a class is taken from its slot without asking for its name again. A slot behind
the last class is a fault.

## Main definitions

* `IndexedPool`: classes in order and the slots of their names
* `IndexedPool.get?`, `IndexedPool.add`, `IndexedPool.remove`
* `IndexedPool.toPool`: the class pool without its index
-/

namespace JvmTrim

/-- All known classes, in the order in which their names were first added, with an index. -/
structure IndexedPool where
  /-- The classes. -/
  classes : List ClassFile
  /-- The slots of the names. -/
  slots : List (String × Nat)
  deriving DecidableEq, Repr, Inhabited

namespace IndexedPool

/-- The pool without classes. -/
def empty : IndexedPool := ⟨[], []⟩

/-- The classes without the index. -/
def toPool (pool : IndexedPool) : ClassPool := ⟨pool.classes⟩

/-- The class in a slot. -/
def classAt (pool : IndexedPool) (slot : Nat) : Except Failure ClassFile :=
  match pool.classes[slot]? with
  | some file => .ok file
  | none => .error (.fault .outOfRange)

/-- The class with a name. -/
def get? (pool : IndexedPool) (name : String) : Except Failure (Option ClassFile) :=
  match pool.slots.lookup name with
  | none => .ok none
  | some slot => some <$> pool.classAt slot

/-- Adds a class, in the slot of the class with the same name if there is one. -/
def add (pool : IndexedPool) (file : ClassFile) : Except Failure IndexedPool :=
  match pool.slots.lookup file.name with
  | some slot => do
    let _ ← pool.classAt slot
    return ⟨pool.classes.set slot file, pool.slots⟩
  | none => .ok ⟨pool.classes ++ [file], (file.name, pool.classes.length) :: pool.slots⟩

/-- The slot of a class after the removal of the class in another one. -/
def movedUp (removed slot : Nat) : Nat := if removed < slot then slot - 1 else slot

/-- The pool without a slot, which belongs to a name. -/
def withoutSlot (pool : IndexedPool) (name : String) (slot : Nat) : IndexedPool :=
  let others := pool.slots.filter (·.1 != name)
  ⟨pool.classes.eraseIdx slot, others.map fun (other, place) => (other, movedUp slot place)⟩

/-- Removes the class with a name, and tells which class that was; the others keep their order. -/
def remove (pool : IndexedPool) (name : String) : Except Failure (Option ClassFile × IndexedPool) :=
  match pool.slots.lookup name with
  | none => .ok (none, pool)
  | some slot => do
    let file ← pool.classAt slot
    return (some file, pool.withoutSlot name slot)

end IndexedPool

end JvmTrim
