import JvmTrim.Opcode

/-!
# Stack manipulations word by word

`pop`, the `dup` family and `swap` remove some words from the top of the operand stack and push
copies of removed words. `Shuffle.pops` and `Shuffle.outputs` say which; `Shuffle.boundaries` are
the depths at which the instruction must not cut a two-word value in half.

## Main definitions

* `Shuffle.pops`, `Shuffle.outputs`, `Shuffle.boundaries`
* `Shuffle.fits`: whether a manipulation is legal on a stack
* `Shuffle.moved?`: the stack afterwards, if the manipulation is legal
-/

namespace JvmTrim

namespace Shuffle

/-- Number of words removed from the top of the stack. -/
def pops : Shuffle → Nat
  | pop | dup => 1
  | pop2 | dupX1 | dup2 | swap => 2
  | dupX2 | dup2X1 => 3
  | dup2X2 => 4

/-- For every pushed word, bottom to top, the removed word (counted bottom to top) it copies. -/
def outputs : Shuffle → List Nat
  | pop => []
  | pop2 => []
  | dup => [0, 0]
  | dupX1 => [1, 0, 1]
  | dupX2 => [2, 0, 1, 2]
  | dup2 => [0, 1, 0, 1]
  | dup2X1 => [1, 2, 0, 1, 2]
  | dup2X2 => [2, 3, 0, 1, 2, 3]
  | swap => [1, 0]

/-- Depths below the top that must fall between two values. -/
def boundaries : Shuffle → List Nat
  | pop => [1]
  | pop2 => [2]
  | dup => [1]
  | dupX1 => [1, 2]
  | dupX2 => [1, 3]
  | dup2 => [2]
  | dup2X1 => [2, 3]
  | dup2X2 => [2, 4]
  | swap => [1, 2]

/-- Whether the output copies something, as for all but `pop` and `pop2`. -/
def copies : Shuffle → Bool
  | pop | pop2 => false
  | dup | dupX1 | dupX2 | dup2 | dup2X1 | dup2X2 | swap => true

/-- Whether a manipulation is legal on a stack, given bottom to top with a mark on every upper
half of a two-word value: there are enough words, and no boundary falls inside a value. -/
def fits (move : Shuffle) (upper : Array Bool) : Bool :=
  decide (move.pops ≤ upper.size) &&
    move.boundaries.all fun depth =>
      decide (upper.size ≤ depth) || !(upper[upper.size - depth]?.getD false)

/-- The stack after a manipulation, for words listed bottom to top of which `upper` marks the upper
halves of two-word values; none if the manipulation is not legal. -/
def moved? {α : Type} (upper : α → Bool) (move : Shuffle) (words : Array α) :
    Option (Array α) :=
  if move.fits (words.map upper) then
    let base := words.size - move.pops
    some (words.extract 0 base ++
      (move.outputs.filterMap fun source => words[base + source]?).toArray)
  else none

theorem lt_pops_of_mem_outputs {move : Shuffle} {source : Nat} (h : source ∈ move.outputs) :
    source < move.pops := by
  cases move <;> simp [outputs, pops] at h ⊢ <;> omega

end Shuffle

end JvmTrim
