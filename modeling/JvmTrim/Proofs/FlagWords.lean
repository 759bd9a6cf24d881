import JvmTrim.IndexSet
import Mathlib.Data.List.Nodup

/-!
# Flags in words

The questions about a set of indices are answered a word at a time: a range is asked for with the
flags of a word shifted down and masked, and the members are listed by taking and clearing the
lowest flag. Where a range or a word ends, the two agree with asking for every index on its own.

Both rest on one fact about numbers: taking one from a word clears its lowest flag, sets the flags
below it and leaves the ones above.

## Main results

* `IndexSet.anyFrom_iff`: a range of indices holds a flag that is set
* `IndexSet.mem_indicesFrom`, `IndexSet.pairwise_indicesFrom`: the indices of the set flags
* `IndexSet.length_indicesFrom`: their number
-/

namespace JvmTrim

namespace IndexSet

/-- **One less than a word**: the lowest flag is cleared and the ones below it are set. -/
theorem getLsbD_sub_one {word : UInt64} {low : Nat} (hset : word.toBitVec.getLsbD low = true)
    (hclear : ∀ position < low, word.toBitVec.getLsbD position = false) (position : Nat) :
    (word - 1).toBitVec.getLsbD position =
      if position < low then true
      else decide (position ≠ low) && word.toBitVec.getLsbD position := by
  have hbit (p : Nat) : word.toNat.testBit p = word.toBitVec.getLsbD p := BitVec.testBit_toNat _
  have hlow : word.toNat % 2 ^ (low + 1) = 2 ^ low := by
    refine Nat.eq_of_testBit_eq fun p => ?_
    rw [Nat.testBit_mod_two_pow, Nat.testBit_two_pow, hbit]
    rcases Nat.lt_trichotomy p low with hlt | rfl | hgt
    · simp [hclear p hlt, Nat.ne_of_gt hlt]
    · simp [hset]
    · simp [Nat.ne_of_lt hgt, Nat.not_lt.mpr hgt]
  have hdiv := Nat.div_add_mod word.toNat (2 ^ (low + 1))
  rw [hlow] at hdiv
  have hpos := Nat.two_pow_pos low
  have hless : (word - 1).toNat = 2 ^ (low + 1) * (word.toNat / 2 ^ (low + 1)) + (2 ^ low - 1) := by
    have hle : (1 : UInt64) ≤ word := by
      rw [UInt64.le_iff_toNat_le]
      change 1 ≤ word.toNat
      omega
    rw [UInt64.toNat_sub_of_le _ _ hle]
    change word.toNat - 1 = _
    omega
  have hpow : 2 ^ low < 2 ^ (low + 1) := Nat.pow_lt_pow_right (by decide) (Nat.lt_succ_self low)
  rw [← BitVec.testBit_toNat, UInt64.toNat_toBitVec, hless, ← hbit, ← hdiv,
    Nat.testBit_two_pow_mul_add _ hpow, Nat.testBit_two_pow_mul_add _ (by omega),
    Nat.testBit_two_pow, Nat.testBit_two_pow_sub_one]
  grind

/-! ## Ranges -/

theorem getLsbD_lowFlags {number : Nat} (hnumber : number ≤ 64) (position : Nat) :
    (lowFlags number).toBitVec.getLsbD position = decide (position < number) := by
  unfold lowFlags
  split
  · rename_i hall
    have hones : (0xFFFFFFFFFFFFFFFF : UInt64).toBitVec = BitVec.allOnes 64 := rfl
    rw [hones, BitVec.getLsbD_allOnes, hall]
  · have hmod : number % 64 = number := Nat.mod_eq_of_lt (by omega)
    have hflag (p : Nat) : (flagOf number).toBitVec.getLsbD p = decide (p = number) := by
      rw [getLsbD_flagOf, hmod]
    have hset : (flagOf number).toBitVec.getLsbD number = true := by simp [hflag]
    rw [getLsbD_sub_one hset fun p hp => by simp [hflag, Nat.ne_of_lt hp], hflag]
    grind

theorem getLsbD_shiftRight (word : UInt64) {amount : Nat} (h : amount < 64) (position : Nat) :
    (word >>> amount.toUInt64).toBitVec.getLsbD position =
      word.toBitVec.getLsbD (amount + position) := by
  rw [UInt64.toBitVec_shiftRight, BitVec.ushiftRight_eq', toNat_shiftAmount h,
    BitVec.getLsbD_ushiftRight]

/-- Flags of one word, shifted down and masked, are those of the indices in a row. -/
theorem shifted_and_lowFlags_iff (words : Array UInt64) (index : Nat) {span : Nat}
    (hspan : index % 64 + span ≤ 64) :
    (words[index / 64]?.getD 0 >>> (index % 64).toUInt64 &&& lowFlags span != 0) = true ↔
      ∃ other, index ≤ other ∧ other < index + span ∧ isFlagged words other = true := by
  have hlt : index % 64 < 64 := Nat.mod_lt index (by decide)
  rw [bne_zero_iff]
  simp only [UInt64.toBitVec_and, BitVec.getLsbD_and, getLsbD_shiftRight _ hlt, isFlagged_eq,
    Bool.and_eq_true]
  constructor
  · rintro ⟨position, hposition, hflag, hlow⟩
    rw [getLsbD_lowFlags (by omega), decide_eq_true_eq] at hlow
    refine ⟨index + position, by omega, by omega, ?_⟩
    have hword : (index + position) / 64 = index / 64 := by omega
    have hplace : (index + position) % 64 = index % 64 + position := by omega
    rw [hword, hplace]
    exact hflag
  · rintro ⟨other, hge, hless, hflag⟩
    have hword : other / 64 = index / 64 := by omega
    have hplace : other % 64 = index % 64 + (other - index) := by omega
    rw [hword, hplace] at hflag
    refine ⟨other - index, by omega, hflag, ?_⟩
    rw [getLsbD_lowFlags (by omega), decide_eq_true_eq]
    omega

/-- **A range of indices**: the steps from word to word miss no flag and add none. -/
theorem anyFrom_iff {words : Array UInt64} {stop bound index : Nat} (hstop : stop ≤ 64 * words.size)
    (hbound : index < stop → words.size ≤ index / 64 + bound) :
    anyFrom words stop bound index = true ↔
      ∃ other, index ≤ other ∧ other < stop ∧ isFlagged words other = true := by
  induction bound generalizing index with
  | zero =>
    have hpast : stop ≤ index := by omega
    simp only [anyFrom, Bool.false_eq_true, false_iff, not_exists]
    omega
  | succ bound ih =>
    rw [anyFrom]
    split
    · rename_i hlt
      have hspan : index % 64 + min (64 - index % 64) (stop - index) ≤ 64 := by omega
      rw [Bool.or_eq_true, shifted_and_lowFlags_iff words index hspan, ih (by omega)]
      constructor
      · rintro (⟨other, hge, hless, hflag⟩ | ⟨other, hge, hless, hflag⟩)
        · exact ⟨other, hge, by omega, hflag⟩
        · exact ⟨other, by omega, hless, hflag⟩
      · rintro ⟨other, hge, hless, hflag⟩
        by_cases hword : other < index + min (64 - index % 64) (stop - index)
        · exact .inl ⟨other, hge, hword, hflag⟩
        · exact .inr ⟨other, by omega, hless, hflag⟩
    · simp only [Bool.false_eq_true, false_iff, not_exists]
      omega

/-! ## Members -/

/-- The lowest flag from a position on, if there is one within the bound. -/
theorem lowestFlag_spec {word : UInt64} {bound position flagged : Nat}
    (hset : word.toBitVec.getLsbD flagged = true) (hge : position ≤ flagged)
    (hlt : flagged < position + bound) :
    word.toBitVec.getLsbD (lowestFlag word bound position) = true ∧
      ∀ other, position ≤ other → other < lowestFlag word bound position →
        word.toBitVec.getLsbD other = false := by
  induction bound generalizing position with
  | zero => omega
  | succ bound ih =>
    rw [lowestFlag]
    split
    · rename_i hhere
      exact ⟨hhere, fun other _ _ => by omega⟩
    · rename_i hhere
      have hne : position ≠ flagged := fun heq => hhere (heq ▸ hset)
      obtain ⟨hfound, hbelow⟩ := ih (show position + 1 ≤ flagged by omega) (by omega)
      refine ⟨hfound, fun other hother hless => ?_⟩
      rcases Nat.eq_or_lt_of_le hother with rfl | hother
      · exact Bool.eq_false_iff.mpr hhere
      · exact hbelow other hother hless

theorem lowestFlag_of_ne_zero {word : UInt64} (h : word ≠ 0) :
    word.toBitVec.getLsbD (lowestFlag word 64 0) = true ∧
      ∀ position < lowestFlag word 64 0, word.toBitVec.getLsbD position = false := by
  obtain ⟨position, hlt, hset⟩ := bne_zero_iff.mp (bne_iff_ne.mpr h)
  obtain ⟨hfound, hbelow⟩ := lowestFlag_spec hset (Nat.zero_le _)
    (show position < 0 + 64 by omega)
  exact ⟨hfound, fun other => hbelow other (Nat.zero_le _)⟩

/-- Masking a word with one less clears its lowest flag. -/
theorem getLsbD_and_sub_one {word : UInt64} (h : word ≠ 0) (position : Nat) :
    (word &&& (word - 1)).toBitVec.getLsbD position =
      (decide (position ≠ lowestFlag word 64 0) && word.toBitVec.getLsbD position) := by
  obtain ⟨hset, hclear⟩ := lowestFlag_of_ne_zero h
  rw [UInt64.toBitVec_and, BitVec.getLsbD_and, getLsbD_sub_one hset hclear]
  split
  · rename_i hlt
    rw [hclear position hlt, Bool.false_and, Bool.and_false]
  · rw [Bool.and_comm, Bool.and_assoc, Bool.and_self]

/-- Whether the flags of a word lie in its last `bound` places. -/
def FlagsWithin (bound : Nat) (word : UInt64) : Prop :=
  ∀ position, position + bound < 64 → word.toBitVec.getLsbD position = false

theorem flagsWithin_word (word : UInt64) : FlagsWithin 64 word := fun _ _ => by omega

variable {base bound : Nat} {word : UInt64}

theorem not_flagsWithin_zero (h : FlagsWithin 0 word) (position : Nat) :
    word.toBitVec.getLsbD position = false := by
  by_cases hlt : position < 64
  · exact h position hlt
  · exact BitVec.getLsbD_of_ge _ _ (Nat.le_of_not_lt hlt)

/-- The flag that is cleared was the only one that could be in front of the smaller bound. -/
theorem FlagsWithin.and_sub_one (h : FlagsWithin (bound + 1) word) (hne : word ≠ 0) :
    FlagsWithin bound (word &&& (word - 1)) := by
  intro position hposition
  obtain ⟨hset, hclear⟩ := lowestFlag_of_ne_zero hne
  rw [getLsbD_and_sub_one hne, Bool.and_eq_false_iff, decide_eq_false_iff_not, not_not]
  rcases Nat.lt_trichotomy position (lowestFlag word 64 0) with hlt | heq | hgt
  · exact .inr (hclear position hlt)
  · exact .inl heq
  · rw [h _ (by omega)] at hset
    cases hset

theorem mem_indicesIn (h : FlagsWithin bound word) {index : Nat} :
    index ∈ indicesIn base bound word ↔
      ∃ position, word.toBitVec.getLsbD position = true ∧ index = base + position := by
  induction bound generalizing word with
  | zero => simp [indicesIn, not_flagsWithin_zero h]
  | succ bound ih =>
    rw [indicesIn]
    split
    · rename_i hzero
      subst hzero
      simp
    · rename_i hne
      obtain ⟨hset, -⟩ := lowestFlag_of_ne_zero hne
      rw [List.mem_cons, ih (h.and_sub_one hne)]
      simp only [getLsbD_and_sub_one hne, Bool.and_eq_true, decide_eq_true_eq]
      grind

theorem pairwise_indicesIn (h : FlagsWithin bound word) :
    (indicesIn base bound word).Pairwise (· < ·) := by
  induction bound generalizing word with
  | zero => exact .nil
  | succ bound ih =>
    rw [indicesIn]
    split
    · exact .nil
    · rename_i hne
      have hrest := h.and_sub_one hne
      refine List.pairwise_cons.mpr ⟨fun index hindex => ?_, ih hrest⟩
      obtain ⟨position, hset, rfl⟩ := (mem_indicesIn hrest).mp hindex
      rw [getLsbD_and_sub_one hne, Bool.and_eq_true, decide_eq_true_eq] at hset
      have hge : ¬ position < lowestFlag word 64 0 := fun hlt => by
        rw [(lowestFlag_of_ne_zero hne).2 position hlt] at hset
        cases hset.2
      omega

/-- There are as many indices as flags. -/
theorem length_indicesIn (base : Nat) (word : UInt64) :
    (indicesIn base 64 word).length = countFlags word := by
  have hnodup : (indicesIn base 64 word).Nodup :=
    (pairwise_indicesIn (flagsWithin_word word)).imp fun h => Nat.ne_of_lt h
  have hflags : (((List.range 64).filter word.toBitVec.getLsbD).map (base + ·)).Nodup :=
    (List.nodup_range.filter _).map fun _ _ h => Nat.add_left_cancel h
  have hperm : (indicesIn base 64 word).Perm
      (((List.range 64).filter word.toBitVec.getLsbD).map (base + ·)) := by
    rw [List.perm_ext_iff_of_nodup hnodup hflags]
    intro index
    rw [mem_indicesIn (flagsWithin_word word)]
    simp only [List.mem_map, List.mem_filter, List.mem_range]
    constructor
    · rintro ⟨position, hset, rfl⟩
      exact ⟨position, ⟨BitVec.lt_of_getLsbD hset, hset⟩, rfl⟩
    · rintro ⟨position, ⟨-, hset⟩, rfl⟩
      exact ⟨position, hset, rfl⟩
  rw [hperm.length_eq, List.length_map, countFlags, List.countP_eq_length_filter]

/-! ## Members of a row of words -/

theorem le_of_mem_indicesFrom {words : List UInt64} {base index : Nat}
    (h : index ∈ indicesFrom base words) : base ≤ index := by
  induction words generalizing base with
  | nil => cases h
  | cons word rest ih =>
    rcases List.mem_append.mp h with h | h
    · obtain ⟨position, -, rfl⟩ := (mem_indicesIn (flagsWithin_word word)).mp h
      omega
    · exact Nat.le_trans (Nat.le_add_right _ _) (ih h)

theorem lt_of_mem_indicesIn {base index : Nat} {word : UInt64}
    (h : index ∈ indicesIn base 64 word) : index < base + 64 := by
  obtain ⟨position, hset, rfl⟩ := (mem_indicesIn (flagsWithin_word word)).mp h
  have := BitVec.lt_of_getLsbD hset
  omega

/-- **The members are listed in ascending order.** -/
theorem pairwise_indicesFrom (base : Nat) (words : List UInt64) :
    (indicesFrom base words).Pairwise (· < ·) := by
  induction words generalizing base with
  | nil => exact .nil
  | cons word rest ih =>
    refine List.pairwise_append.mpr ⟨pairwise_indicesIn (flagsWithin_word word), ih _, ?_⟩
    intro index hindex other hother
    exact Nat.lt_of_lt_of_le (lt_of_mem_indicesIn hindex) (le_of_mem_indicesFrom hother)

/-- **The members are the indices of the set flags.** -/
theorem mem_indicesFrom (base index : Nat) (words : List UInt64) :
    base + index ∈ indicesFrom base words ↔
      (words[index / 64]?.getD 0).toBitVec.getLsbD (index % 64) = true := by
  induction words generalizing base index with
  | nil => simp [indicesFrom]
  | cons word rest ih =>
    rw [indicesFrom, List.mem_append]
    by_cases hfirst : index < 64
    · have hword : index / 64 = 0 := by omega
      have hplace : index % 64 = index := by omega
      rw [hword, hplace, List.getElem?_cons_zero, Option.getD_some]
      constructor
      · rintro (hin | hrest)
        · obtain ⟨position, hset, hposition⟩ := (mem_indicesIn (flagsWithin_word word)).mp hin
          exact Nat.add_left_cancel hposition ▸ hset
        · have := le_of_mem_indicesFrom hrest
          omega
      · exact fun hset => .inl ((mem_indicesIn (flagsWithin_word word)).mpr ⟨index, hset, rfl⟩)
    · obtain ⟨later, rfl⟩ : ∃ later, index = later + 64 := ⟨index - 64, by omega⟩
      have hword : (later + 64) / 64 = later / 64 + 1 := by omega
      rw [hword, Nat.add_mod_right, List.getElem?_cons_succ, ← ih (base + 64)]
      have hsame : base + (later + 64) = base + 64 + later := by omega
      rw [hsame]
      constructor
      · rintro (hin | hrest)
        · have := lt_of_mem_indicesIn hin
          omega
        · exact hrest
      · exact .inr

theorem length_indicesFrom (base : Nat) (words : List UInt64) :
    (indicesFrom base words).length =
      words.foldr (fun word total => countFlags word + total) 0 := by
  induction words generalizing base with
  | nil => rfl
  | cons word rest ih =>
    rw [indicesFrom, List.length_append, length_indicesIn, ih, List.foldr_cons]

end IndexSet

end JvmTrim
