import JvmTrim.Value

/-!
# Frames

The abstract state at a program point: the local variables and the operand stack. Each slot and
word holds a value and the origins that produced it. A two-word value sits in the lower of two
variable slots and in the upper of two stack words; the other one is unusable.

## Main definitions

* `Slot`, `Locals`, `Stack`, `Frame`
* `Locals.load`, `Locals.store`: access to variables
* `Stack.push`, `Stack.pop`, `Stack.popKind`: access to the stack, failing on underflow
* `Locals.join`, `Stack.join`: what holds of both states
-/

namespace JvmTrim

/-- A value with the origins that produced it. -/
structure Slot where
  /-- The value. -/
  value : Value
  /-- What produced it. -/
  producers : OriginSet
  deriving DecidableEq, Repr, Inhabited

namespace Slot

/-- An unusable slot. -/
def top (producers : OriginSet) : Slot := ⟨.top, producers⟩

/-- What holds of both slots. -/
def join (a b : Slot) : Slot := ⟨a.value.join b.value, a.producers.union b.producers⟩

/-- Forgets a symbol. -/
def forget (symbol : Symbol) (slot : Slot) : Slot :=
  { slot with value := slot.value.withoutSymbol symbol }

end Slot

/-- Slots as text, in square brackets. -/
def slotsText (slots : Array Slot) : String :=
  "[" ++ String.intercalate " " (slots.toList.map (·.value.text)) ++ "]"

/-- The local variables at a program point. -/
structure Locals where
  /-- The slots. -/
  slots : Array Slot
  deriving DecidableEq, Repr, Inhabited

namespace Locals

/-- Unusable variables, as they are when a method is entered. -/
def ofSize (size : Nat) : Locals :=
  ⟨Array.replicate size (Slot.top (OrderedSet.singleton .entry))⟩

/-- Number of slots. -/
def size (locals : Locals) : Nat := locals.slots.size

/-- The slot with an index. -/
def load (locals : Locals) (index : UInt16) : Except Failure Slot :=
  orDefect (.localOutOfRange index locals.size) locals.slots[index.toNat]?

/-- The slots with the lower slot of a two-word value at `index` made unusable. -/
def breakAt (slots : Array Slot) (index : Nat) : Array Slot :=
  slots.modify index fun slot => if slot.value.isWide then { slot with value := .top } else slot

/-- Stores a value. A two-word value also takes the next slot, and a two-word value that the store
cuts in half becomes unusable. -/
def store (locals : Locals) (index : UInt16) (value : Value) (producers : OriginSet) :
    Except Failure Locals :=
  let at' := index.toNat
  let width := if value.isWide then 2 else 1
  if at' + width > locals.size then defect (.storeOutOfRange index locals.size)
  else
    let slots := if at' = 0 then locals.slots else breakAt locals.slots (at' - 1)
    let slots :=
      if value.isWide then slots.setIfInBounds (at' + 1) (Slot.top producers) else slots
    .ok ⟨slots.setIfInBounds at' ⟨value, producers⟩⟩

/-- Forgets a symbol in every slot. -/
def forget (symbol : Symbol) (locals : Locals) : Locals := ⟨locals.slots.map (Slot.forget symbol)⟩

/-- What holds of both, over the slots that both have. -/
def join (a b : Locals) : Locals := ⟨a.slots.zipWith Slot.join b.slots⟩

/-- The variables as text. -/
def text (locals : Locals) : String := slotsText locals.slots

end Locals

/-- The operand stack at a program point. -/
structure Stack where
  /-- The words from bottom to top. -/
  words : Array Slot
  deriving DecidableEq, Repr, Inhabited

namespace Stack

/-- The stack without words. -/
def empty : Stack := ⟨#[]⟩

/-- Number of words. -/
def height (stack : Stack) : Nat := stack.words.size

/-- Pushes a single word. -/
def pushWord (stack : Stack) (word : Slot) : Stack := ⟨stack.words.push word⟩

/-- Pushes a value; a two-word value lies on an unusable word. -/
def push (stack : Stack) (value : Value) (producers : OriginSet) : Stack :=
  if value.isWide then (stack.pushWord (Slot.top producers)).pushWord ⟨value, producers⟩
  else stack.pushWord ⟨value, producers⟩

/-- The top word and the stack below it. -/
def popWord (stack : Stack) : Except Failure (Slot × Stack) :=
  match stack.words.back? with
  | some word => .ok (word, ⟨stack.words.pop⟩)
  | none => defect .emptyStack

/-- Drops words from the top, as far as there are any. -/
def drop (stack : Stack) (count : Nat) : Stack := ⟨stack.words.take (stack.height - count)⟩

/-- The stack that popping `count` words leaves behind, also when the pop fails on the way. -/
def afterPop (stack : Stack) (count : Nat) : Stack := stack.drop (max count 1)

/-- The value of the top word and the stack without the `count` words on top; at least one word is
popped. -/
def pop (stack : Stack) (count : Nat) : Except Failure (Value × Stack) := do
  let (top, _) ← stack.popWord
  if stack.height < count then defect .emptyStack
  else return (top.value, stack.afterPop count)

/-- Pops a value that has to be of a kind. -/
def popKind (stack : Stack) (kind : Kind) : Except Failure (Value × Stack) := do
  let (value, rest) ← stack.pop kind.size
  if value.kind? = some kind then return (value, rest)
  else defect (.unexpectedKind kind.name value.text)

/-- The word at a position counted from the bottom. -/
def get? (stack : Stack) (position : Nat) : Option Slot := stack.words[position]?

/-- The word at a depth counted from the top. -/
def peek? (stack : Stack) (depth : Nat) : Option Slot :=
  if depth < stack.height then stack.words[stack.height - 1 - depth]? else none

/-- The position of the other word of the two-word value at a position, if there is one. -/
def partner? (stack : Stack) (position : Nat) : Option Nat :=
  match stack.get? position with
  | none => none
  | some word =>
    if word.value.isWide then if position = 0 then none else some (position - 1)
    else if word.value = .top && ((stack.get? (position + 1)).map (·.value.isWide)).getD false then
      some (position + 1)
    else none

/-- Forgets a symbol in every word. -/
def forget (symbol : Symbol) (stack : Stack) : Stack := ⟨stack.words.map (Slot.forget symbol)⟩

/-- What holds of both stacks, which need the same height. -/
def join (a b : Stack) : Except Failure Stack :=
  if a.height = b.height then .ok ⟨a.words.zipWith Slot.join b.words⟩
  else defect (.unequalHeights a.height b.height)

/-- The stack as text. -/
def text (stack : Stack) : String := slotsText stack.words

end Stack

/-- The abstract state at a program point. -/
structure Frame where
  /-- The variables. -/
  locals : Locals
  /-- The operand stack. -/
  stack : Stack
  deriving DecidableEq, Repr, Inhabited

end JvmTrim
