import JvmTrim.Failure

/-!
# Sets of indices below a capacity

The shape in which the analyses keep "is this offset reached", "does this instruction stay": one
flag per index, packed into words of 64 flags. The flag of an index is in the word with the number
`index / 64`, at the position `index % 64`. Flags of the last word that belong to no index below the
capacity are never set, so that questions about whole words need not look at the capacity.

Writing at or beyond the capacity is a fault; asking there is not, so that a caller may probe the
offset one past the end of a method body.

## Main definitions

* `IndexSet`: a set of indices below its capacity
* `IndexSet.insert`, `IndexSet.remove`, `IndexSet.union`: the writing operations, checked
* `IndexSet.contains`, `IndexSet.anyIn`, `IndexSet.toList`: the asking operations, total
-/

namespace JvmTrim

namespace IndexSet

/-! ### Words of flags -/

/-- The word in which only the flag of an index is set. -/
def flagOf (index : Nat) : UInt64 := 1 <<< (index % 64).toUInt64

/-- Whether the flag of an index is set; flags behind the last word are not. -/
def isFlagged (words : Array UInt64) (index : Nat) : Bool :=
  words[index / 64]?.getD 0 &&& flagOf index != 0

/-- Shifting a word is by the amount itself if that is less than 64. -/
theorem toNat_shiftAmount {amount : Nat} (h : amount < 64) :
    (amount.toUInt64.toBitVec % 64).toNat = amount := by
  rw [Nat.toUInt64_eq, UInt64.toBitVec_ofNat', BitVec.toNat_umod, BitVec.toNat_ofNat]
  change amount % 2 ^ 64 % 64 = amount
  omega

theorem getLsbD_flagOf (index position : Nat) :
    (flagOf index).toBitVec.getLsbD position = decide (position = index % 64) := by
  have hlt : index % 64 < 64 := Nat.mod_lt index (by decide)
  rw [flagOf, UInt64.toBitVec_shiftLeft, BitVec.shiftLeft_eq', toNat_shiftAmount hlt,
    UInt64.toBitVec_ofNat, BitVec.getLsbD_shiftLeft, BitVec.getLsbD_one]
  grind

/-- A word is not zero exactly if one of its flags is set. -/
theorem bne_zero_iff {word : UInt64} :
    (word != 0) = true ↔ ∃ position < 64, word.toBitVec.getLsbD position = true := by
  constructor
  · intro hne
    refine Classical.byContradiction fun hnone => ?_
    have hzero : word.toBitVec = 0#64 := BitVec.eq_of_getLsbD_eq fun position hlt => by
      rw [BitVec.getLsbD_zero]
      exact Bool.eq_false_iff.mpr fun hset => hnone ⟨position, hlt, hset⟩
    rw [show word = 0 from UInt64.toBitVec_inj.mp hzero] at hne
    cases hne
  · rintro ⟨position, -, hset⟩
    refine bne_iff_ne.mpr fun hzero => ?_
    subst hzero
    cases BitVec.getLsbD_zero.symm.trans hset

/-- Masking with the word of one flag asks for that flag. -/
theorem isFlagged_eq (words : Array UInt64) (index : Nat) : isFlagged words index =
    (words[index / 64]?.getD 0).toBitVec.getLsbD (index % 64) := by
  rw [isFlagged, Bool.eq_iff_iff, bne_zero_iff]
  simp only [UInt64.toBitVec_and, BitVec.getLsbD_and, getLsbD_flagOf]
  have hlt : index % 64 < 64 := Nat.mod_lt index (by decide)
  grind

theorem isFlagged_replicate (size index : Nat) :
    isFlagged (Array.replicate size 0) index = false := by
  have hzero : (Array.replicate size (0 : UInt64))[index / 64]?.getD 0 = 0 := by
    rw [Array.getElem?_replicate]
    split <;> rfl
  rw [isFlagged_eq, hzero]
  exact BitVec.getLsbD_zero

theorem isFlagged_modify_or {words : Array UInt64} {index : Nat} (h : index / 64 < words.size)
    (other : Nat) : isFlagged (words.modify (index / 64) (· ||| flagOf index)) other =
      (decide (other = index) || isFlagged words other) := by
  rw [isFlagged_eq, isFlagged_eq, Array.getElem?_modify]
  by_cases hword : index / 64 = other / 64
  · have hsame : (other % 64 = index % 64) = (other = index) := by
      apply propext
      omega
    simp [hword ▸ h, hword, getLsbD_flagOf, hsame, Bool.or_comm]
  · have hne : other ≠ index := fun heq => hword (heq ▸ rfl)
    simp [hword, hne]

theorem isFlagged_modify_and_not (words : Array UInt64) (index other : Nat) :
    isFlagged (words.modify (index / 64) (· &&& ~~~flagOf index)) other =
      (decide (other ≠ index) && isFlagged words other) := by
  rw [isFlagged_eq, isFlagged_eq, Array.getElem?_modify]
  by_cases hword : index / 64 = other / 64
  · have hsame : (other % 64 = index % 64) = (other = index) := by
      apply propext
      omega
    rw [if_pos hword]
    cases words[other / 64]? with
    | none => simp
    | some word =>
      have hlt : other % 64 < 64 := Nat.mod_lt other (by decide)
      simp only [Option.map_some, Option.getD_some, UInt64.toBitVec_and, UInt64.toBitVec_not,
        BitVec.getLsbD_and, BitVec.getLsbD_not, getLsbD_flagOf, hsame, hlt, decide_true,
        Bool.true_and, decide_not]
      exact Bool.and_comm ..
  · have hne : other ≠ index := fun heq => hword (heq ▸ rfl)
    simp [hword, hne]

theorem isFlagged_zipWith_or {a b : Array UInt64} (h : a.size = b.size) (index : Nat) :
    isFlagged (Array.zipWith (· ||| ·) a b) index = (isFlagged a index || isFlagged b index) := by
  rw [isFlagged_eq, isFlagged_eq, isFlagged_eq, Array.getElem?_zipWith]
  by_cases hlt : index / 64 < a.size
  · simp [Array.getElem?_eq_getElem hlt, Array.getElem?_eq_getElem (h ▸ hlt)]
  · simp [Array.getElem?_eq_none (Nat.le_of_not_lt hlt),
      Array.getElem?_eq_none (h ▸ Nat.le_of_not_lt hlt)]

end IndexSet

/-- A set of indices below a capacity, as one flag per index. -/
structure IndexSet where
  /-- All indices of the set lie below this number. -/
  capacity : Nat
  /-- The flags, 64 to a word. -/
  words : Array UInt64
  /-- The words have a flag for every index below the capacity. -/
  size_words : words.size = (capacity + 63) / 64
  /-- The other flags of the last word are not set. -/
  unused : ∀ index, capacity ≤ index → IndexSet.isFlagged words index = false
  deriving DecidableEq, Repr

namespace IndexSet

/-- The empty set with the given capacity. -/
def ofCapacity (capacity : Nat) : IndexSet where
  capacity := capacity
  words := Array.replicate ((capacity + 63) / 64) 0
  size_words := Array.size_replicate
  unused index _ := isFlagged_replicate _ index

instance : Inhabited IndexSet := ⟨ofCapacity 0⟩

/-- The empty set with another capacity. -/
def reset (_ : IndexSet) (capacity : Nat) : IndexSet := ofCapacity capacity

/-- Whether `index` is a member; nothing at or beyond the capacity is. -/
def contains (set : IndexSet) (index : Nat) : Bool :=
  decide (index < set.capacity) && isFlagged set.words index

theorem word_lt_size (set : IndexSet) {index : Nat} (h : index < set.capacity) :
    index / 64 < set.words.size := by
  rw [set.size_words]
  omega

/-- The set with the flag of an index set. -/
def withFlag (set : IndexSet) (index : Nat) (h : index < set.capacity) : IndexSet where
  capacity := set.capacity
  words := set.words.modify (index / 64) (· ||| flagOf index)
  size_words := Array.size_modify.trans set.size_words
  unused other hother := by
    rw [isFlagged_modify_or (set.word_lt_size h), set.unused other hother, Bool.or_false,
      decide_eq_false_iff_not]
    omega

/-- The set with the flag of an index cleared. -/
def withoutFlag (set : IndexSet) (index : Nat) : IndexSet where
  capacity := set.capacity
  words := set.words.modify (index / 64) (· &&& ~~~flagOf index)
  size_words := Array.size_modify.trans set.size_words
  unused other hother := by
    rw [isFlagged_modify_and_not, set.unused other hother, Bool.and_false]

/-- Adds an index, and tells whether it is new. -/
def insert (set : IndexSet) (index : Nat) : Except Failure (Bool × IndexSet) :=
  if h : index < set.capacity then .ok (!isFlagged set.words index, set.withFlag index h)
  else .error (.fault .outOfRange)

/-- Adds an index. -/
def add (set : IndexSet) (index : Nat) : Except Failure IndexSet :=
  (·.2) <$> set.insert index

/-- Removes an index. -/
def remove (set : IndexSet) (index : Nat) : Except Failure IndexSet :=
  if index < set.capacity then .ok (set.withoutFlag index)
  else .error (.fault .outOfRange)

/-- The set with the flags of both sets. -/
def merged (a b : IndexSet) (h : a.capacity = b.capacity) : IndexSet where
  capacity := a.capacity
  words := Array.zipWith (· ||| ·) a.words b.words
  size_words := by
    rw [Array.size_zipWith, a.size_words, b.size_words, h, Nat.min_self]
  unused index hindex := by
    have hsize : a.words.size = b.words.size := by rw [a.size_words, b.size_words, h]
    rw [isFlagged_zipWith_or hsize, a.unused index hindex, b.unused index (h ▸ hindex)]
    rfl

/-- All members of both sets, which need the same capacity, and whether that is more than the
first one: whether one of its words changes. -/
def union (a b : IndexSet) : Except Failure (Bool × IndexSet) :=
  if h : a.capacity = b.capacity then
    .ok ((a.words.zip b.words).any fun (word, other) => word ||| other != word, a.merged b h)
  else .error (.fault .capacityMismatch)

/-- All members of both sets, which need the same capacity. -/
def join (a b : IndexSet) : Except Failure IndexSet := (·.2) <$> a.union b

/-- Number of flags that are set in a word. -/
def countFlags (word : UInt64) : Nat := (List.range 64).countP word.toBitVec.getLsbD

/-- Number of members. -/
def count (set : IndexSet) : Nat :=
  set.words.toList.foldr (fun word total => countFlags word + total) 0

/-- Whether there are no members. -/
def isEmpty (set : IndexSet) : Bool := set.words.all (· == 0)

/-! ### Ranges -/

/-- The word with the lowest flags set, at most 64 of them. -/
def lowFlags (number : Nat) : UInt64 :=
  if number = 64 then 0xFFFFFFFFFFFFFFFF else flagOf number - 1

/-- Whether a flag from `index` up to `stop` is set. Each step asks for the flags that are in the
same word, all at once, and goes on at the next word. -/
def anyFrom (words : Array UInt64) (stop : Nat) : Nat → Nat → Bool
  | 0, _ => false
  | bound + 1, index =>
    if index < stop then
      let word := words[index / 64]?.getD 0 >>> (index % 64).toUInt64
      let span := min (64 - index % 64) (stop - index)
      word &&& lowFlags span != 0 || anyFrom words stop bound (index + span)
    else false

/-- Whether some member lies in the half-open range from `start` to `stop`. -/
def anyIn (set : IndexSet) (start stop : Nat) : Bool :=
  anyFrom set.words (min stop set.capacity) set.words.size start

/-! ### Iteration -/

/-- The lowest position from `position` on whose flag is set in a word. -/
def lowestFlag (word : UInt64) : Nat → Nat → Nat
  | 0, position => position
  | bound + 1, position =>
    if word.toBitVec.getLsbD position then position else lowestFlag word bound (position + 1)

/-- The indices of the flags of a word, whose first flag belongs to `base`: the lowest flag is taken
and cleared until none is left. -/
def indicesIn (base : Nat) : Nat → UInt64 → List Nat
  | 0, _ => []
  | bound + 1, word =>
    if word = 0 then []
    else (base + lowestFlag word 64 0) :: indicesIn base bound (word &&& (word - 1))

/-- The indices of the flags of words, the first of which belongs to `base` and those behind it. -/
def indicesFrom : Nat → List UInt64 → List Nat
  | _, [] => []
  | base, word :: rest => indicesIn base 64 word ++ indicesFrom (base + 64) rest

/-- The members in ascending order. -/
def toList (set : IndexSet) : List Nat := indicesFrom 0 set.words.toList

/-- The set as its members in braces. -/
def text (set : IndexSet) : String :=
  "\x7b" ++ String.intercalate ", " (set.toList.map toString) ++ "\x7d"

@[simp] theorem capacity_ofCapacity (n : Nat) : (ofCapacity n).capacity = n := rfl

@[simp] theorem contains_ofCapacity (n index : Nat) : (ofCapacity n).contains index = false := by
  rw [contains, ofCapacity, isFlagged_replicate, Bool.and_false]

/-- Membership is read off the words. -/
theorem contains_eq (set : IndexSet) (index : Nat) :
    set.contains index = isFlagged set.words index := by
  by_cases h : index < set.capacity
  · rw [contains, decide_eq_true h, Bool.true_and]
  · rw [contains, set.unused index (Nat.le_of_not_lt h), Bool.and_false]

end IndexSet

end JvmTrim
