import JvmTrim.Proofs.FrameAccess
import JvmTrim.Proofs.Join
import JvmTrim.Proofs.Machine

/-!
# Names that stand for numbers

A frame holds of a store if, for some choice of a number for every name, every known constant is the
number that the machine has there and every named value is the number of its name. Covering keeps
this. Forgetting a name lets the name change its number. Folding constants follows the machine's
arithmetic.

## Main definitions

* `Naming`: the numbers that names stand for
* `Value.Holds`, `Frame.Holds`: what is said of a word and of a store

## Main results

* `Frame.Covers.holds`: what a frame covers is no less true
* `Frame.Holds.forget`: a forgotten name may change its number
* `Locals.holds_store`: what holds of the variables after a store
-/

namespace JvmTrim

/-- The numbers that names stand for, apart for ints and longs; a name that is not in use stands for
none. -/
structure Naming where
  int : Symbol → Option Int32
  long : Symbol → Option Int64

namespace Naming

/-- Gives a name to a number. -/
def assign (names : Naming) (symbol : Symbol) : Cell → Naming
  | .int value => { names with int := fun s => if s = symbol then some value else names.int s }
  | .long value => { names with long := fun s => if s = symbol then some value else names.long s }
  | .half | .unset => names

/-- Whether parameters have the same names for the same numbers. -/
def SameParameters (a b : Naming) : Prop :=
  ∀ slot, b.int (.parameter slot) = a.int (.parameter slot) ∧
    b.long (.parameter slot) = a.long (.parameter slot)

theorem SameParameters.refl (names : Naming) : names.SameParameters names :=
  fun _ => ⟨rfl, rfl⟩

theorem SameParameters.trans {a b c : Naming} (hab : a.SameParameters b)
    (hbc : b.SameParameters c) : a.SameParameters c :=
  fun slot => ⟨(hbc slot).1.trans (hab slot).1, (hbc slot).2.trans (hab slot).2⟩

theorem sameParameters_assign (names : Naming) (offset : Nat) (word : Cell) :
    names.SameParameters (names.assign (.instruction offset) word) := by
  intro slot
  cases word <;> simp [assign]

end Naming

/-! ## What is said of words -/

/-- Whether what is known of a number is true of it. -/
def Abstract.Holds {α : Type} (name : Symbol → Option α) : Abstract α → α → Prop
  | unknown, _ => True
  | specific symbol, number => name symbol = some number
  | particular value, number => number = value

namespace Value

/-- Whether what is known of a word is true of it. -/
def Holds (names : Naming) : Value → Cell → Prop
  | top, _ => True
  | int a, .int number => a.Holds names.int number
  | long a, .long number => a.Holds names.long number
  | _, _ => False

variable {names : Naming} {value : Value} {word : Cell} {symbol : Symbol}

theorem kind?_eq_int : value.kind? = some .int ↔ ∃ a, value = int a := by
  cases value <;> simp [kind?]

theorem kind?_eq_long : value.kind? = some .long ↔ ∃ a, value = long a := by
  cases value <;> simp [kind?]

/-- What a value covers is no less true. -/
theorem Covers.holds {above below : Value} (h : above.Covers below)
    (hb : below.Holds names word) : above.Holds names word := by
  cases above with
  | top => trivial
  | int a =>
    cases below with
    | int b =>
      cases word <;> try exact hb.elim
      rcases Abstract.join_eq_left_iff.mp (int.inj h) with rfl | rfl
      · trivial
      · exact hb
    | _ => cases h
  | long a =>
    cases below with
    | long b =>
      cases word <;> try exact hb.elim
      rcases Abstract.join_eq_left_iff.mp (long.inj h) with rfl | rfl
      · trivial
      · exact hb
    | _ => cases h
  | float a => cases below <;> first | exact hb.elim | cases h
  | double a => cases below <;> first | exact hb.elim | cases h
  | reference a => cases below <;> first | exact hb.elim | cases h
  | returnAddress a => cases below <;> first | exact hb.elim | cases h

/-- A value without a name holds also when the name changes its number. -/
theorem holds_withoutSymbol (h : value.Holds names word) (symbol : Symbol) (number : Cell) :
    (value.withoutSymbol symbol).Holds (names.assign symbol number) word := by
  cases value with
  | top => trivial
  | int a | long a =>
    cases word <;> try exact h.elim
    unfold withoutSymbol
    split
    · trivial
    · rename_i hs
      cases a with
      | unknown => trivial
      | particular c => cases number <;> exact h
      | specific s =>
        have hne : s ≠ symbol := fun heq => hs (by rw [heq]; rfl)
        cases number <;> simpa [Holds, Abstract.Holds, Naming.assign, hne] using h
  | float a => exact h.elim
  | double a => exact h.elim
  | reference a => exact h.elim
  | returnAddress a => exact h.elim

/-- A named value holds of the number that its name is given to. -/
theorem holds_specific {kind : Kind} (h : word.kind? = some kind) (names : Naming)
    (symbol : Symbol) (notNull : Bool) :
    (specific kind symbol notNull).Holds (names.assign symbol word) word := by
  cases word <;> cases h <;> simp [specific, Holds, Abstract.Holds, Naming.assign]

theorem holds_unknown {kind : Kind} (h : word.kind? = some kind) : (unknown kind).Holds names word := by
  cases word <;> cases h <;> trivial

/-- Two values known to be the same are the same number. -/
theorem eq_of_sameIdentity {a b : Value} {x y : Cell} (h : a.sameIdentity b = true)
    (ha : a.Holds names x) (hb : b.Holds names y) : x = y := by
  simp only [sameIdentity, Bool.and_eq_true, beq_iff_eq, Option.isSome_iff_exists] at h
  obtain ⟨⟨hkind, s, hs⟩, hsymbol⟩ := h
  cases a with
  | int a =>
    obtain ⟨b, rfl⟩ := kind?_eq_int.mp hkind.symm
    cases x <;> cases y <;> try first | exact ha.elim | exact hb.elim
    cases a <;> cases hs
    cases b <;> cases hsymbol
    exact congrArg Cell.int (Option.some.inj (ha.symm.trans hb))
  | long a =>
    obtain ⟨b, rfl⟩ := kind?_eq_long.mp hkind.symm
    cases x <;> cases y <;> try first | exact ha.elim | exact hb.elim
    cases a <;> cases hs
    cases b <;> cases hsymbol
    exact congrArg Cell.long (Option.some.inj (ha.symm.trans hb))
  | top => cases hs
  | float a => exact ha.elim
  | double a => exact ha.elim
  | reference a => exact ha.elim
  | returnAddress a => exact ha.elim

end Value

/-! ## What is said of stores -/

/-- Whether what is known of variables is true of them. -/
def Locals.Holds (names : Naming) (locals : Locals) (words : List Cell) : Prop :=
  ∀ (i : Nat) (slot : Slot), locals.slots[i]? = some slot →
    ∃ word, words[i]? = some word ∧ slot.value.Holds names word

/-- Whether what is known of a store is true of it. -/
structure Frame.Holds (names : Naming) (frame : Frame) (store : Store) : Prop where
  stack : List.Forall₂ (fun slot word => slot.value.Holds names word) frame.stack.view store.stack
  locals : frame.locals.Holds names store.locals

/-- What holds of the variables after a store, if no other word changes. -/
theorem Locals.holds_store {names : Naming} {locals locals' : Locals} {index : UInt16}
    {value : Value} {producers : OriginSet} {words words' : List Cell} {word : Cell}
    (h : locals.store index value producers = .ok locals') (hl : locals.Holds names words)
    (hlength : words'.length = words.length) (hword : words'[index.toNat]? = some word)
    (hholds : value.Holds names word)
    (hsame : ∀ i, i ≠ index.toNat → ¬ (value.isWide = true ∧ i = index.toNat + 1) →
      words'[i]? = words[i]?) : locals'.Holds names words' := by
  obtain ⟨hfit, -, hslots⟩ := Locals.store_eq_ok h
  intro i slot hi
  rw [hslots] at hi
  split at hi
  · rename_i heq
    subst heq
    cases hi
    exact ⟨word, hword, hholds⟩
  · rename_i hne
    split at hi
    · rename_i hhalf
      obtain ⟨hwide, rfl⟩ := hhalf
      cases hi
      have hlt : index.toNat + 1 < locals.size := by
        rw [if_pos hwide] at hfit
        omega
      obtain ⟨old, hold, -⟩ := hl _ _ (Array.getElem?_eq_getElem hlt)
      have hlt' : index.toNat + 1 < words'.length := by
        rw [hlength]
        exact (List.getElem?_eq_some_iff.mp hold).1
      exact ⟨_, List.getElem?_eq_getElem hlt', trivial⟩
    · rename_i hnot
      rw [hsame i hne hnot]
      split at hi
      · obtain ⟨old, hold, rfl⟩ := Option.map_eq_some_iff.mp hi
        obtain ⟨word', hword', hholds'⟩ := hl i old hold
        refine ⟨word', hword', ?_⟩
        unfold Locals.cut
        split
        · trivial
        · exact hholds'
      · exact hl i slot hi

namespace Frame

variable {names : Naming} {frame frame' above below : Frame} {store : Store}
  {stack rest locals : List Cell} {word : Cell} {value : Value} {kind : Kind} {offset : Nat}

theorem Holds.height_eq (h : frame.Holds names store) : store.stack.length = frame.stack.height := by
  rw [← Stack.length_view, h.stack.length_eq]

/-- What a frame covers is no less true. -/
theorem Covers.holds (h : above.Covers below) (hb : below.Holds names store) :
    above.Holds names store where
  stack := by
    refine forall₂_comp ?_ h.view hb.stack
    intro a b word hc hw
    exact (Slot.covers_iff.mp hc).1.holds hw
  locals i slot hs := by
    obtain ⟨b, hb', hc⟩ := h.slot i slot hs
    obtain ⟨word, hw, hholds⟩ := hb.locals i b hb'
    exact ⟨word, hw, (Slot.covers_iff.mp hc).1.holds hholds⟩

/-- Forgetting a name lets it change its number. -/
theorem Holds.forget (h : frame.Holds names store) (symbol : Symbol) (number : Cell) :
    Holds (names.assign symbol number)
      ⟨frame.locals.forget symbol, frame.stack.forget symbol⟩ store where
  stack := by
    rw [Stack.view_forget, List.forall₂_map_left_iff]
    exact h.stack.imp fun _ _ hw => Value.holds_withoutSymbol hw symbol number
  locals i slot hs := by
    simp only [Locals.forget, Array.getElem?_map, Option.map_eq_some_iff] at hs
    obtain ⟨old, ho, rfl⟩ := hs
    obtain ⟨word, hw, hv⟩ := h.locals i old ho
    exact ⟨word, hw, Value.holds_withoutSymbol hv symbol number⟩

theorem Holds.popKind (h : Transfer.popKind kind frame = .ok (value, frame'))
    (hf : frame.Holds names ⟨word.pushed ++ rest, locals⟩) (hk : word.kind? = some kind) :
    value.kind? = some kind ∧ value.Holds names word ∧ frame'.Holds names ⟨rest, locals⟩ := by
  obtain ⟨-, hview, hlocals, hkind, top, below, htop, rfl⟩ := Transfer.popKind_eq_ok h
  have hstack := hf.stack
  refine ⟨hkind, ?_, ?_, by rw [hlocals]; exact hf.locals⟩
  · rw [htop] at hstack
    cases word <;> cases hk <;> exact (List.forall₂_cons.mp hstack).1
  · rw [hview]
    have hdrop := List.forall₂_drop kind.size hstack
    rwa [List.drop_left' (Cell.length_pushed hk)] at hdrop

theorem Holds.pop (h : Transfer.pop kind.size frame = .ok (value, frame'))
    (hf : frame.Holds names ⟨word.pushed ++ rest, locals⟩) (hk : word.kind? = some kind) :
    value.Holds names word ∧ frame'.Holds names ⟨rest, locals⟩ := by
  obtain ⟨-, hview, hlocals, top, below, htop, rfl⟩ := Transfer.pop_eq_ok h
  have hstack := hf.stack
  refine ⟨?_, ?_, by rw [hlocals]; exact hf.locals⟩
  · rw [htop] at hstack
    cases word <;> cases hk <;> exact (List.forall₂_cons.mp hstack).1
  · rw [hview, Nat.max_eq_left kind.size_pos]
    have hdrop := List.forall₂_drop kind.size hstack
    rwa [List.drop_left' (Cell.length_pushed hk)] at hdrop

theorem Holds.push (h : Transfer.push offset value frame = .ok ((), frame'))
    (hf : frame.Holds names ⟨rest, locals⟩) (hk : word.kind? = some kind)
    (hv : value.kind? = some kind) (hw : value.Holds names word) :
    frame'.Holds names ⟨word.pushed ++ rest, locals⟩ := by
  obtain ⟨hview, hlocals⟩ := Transfer.push_eq_ok h
  refine ⟨?_, by rw [hlocals]; exact hf.locals⟩
  rw [hview, pushedWords, Value.isWide_of_kind? hv]
  cases word <;> cases hk
  · exact .cons hw hf.stack
  · exact .cons hw (.cons trivial hf.stack)

end Frame

/-! ## Folding follows the machine -/

namespace Machine

theorem toNat_and_31 (value : Int32) : (value &&& 31).toBitVec.toNat = distance value := by
  have h : (value &&& 31).toBitVec = value.toBitVec &&& 31#32 := rfl
  rw [h, BitVec.toNat_and, distance]
  exact Nat.and_two_pow_sub_one_eq_mod value.toBitVec.toNat 5

theorem shiftInt_eq (operator : Shift) (a b : Int32) :
    shiftInt operator a b = shiftBits operator a b := by
  have hlt : distance b < 32 := Nat.mod_lt _ (by decide)
  have hmod : ((b &&& 31).toBitVec.smod 32#32).toNat = distance b := by
    have hmsb : (b &&& 31).toBitVec.msb = false := by
      rw [BitVec.msb_eq_decide, toNat_and_31]
      exact decide_eq_false (by omega)
    rw [BitVec.smod_eq, hmsb]
    simp only [show (32#32).msb = false by decide]
    rw [BitVec.umod_eq, BitVec.toNat_umod, toNat_and_31]
    exact Nat.mod_eq_of_lt hlt
  apply Int32.toBitVec_inj.mp
  cases operator with
  | left =>
    show a.toBitVec <<< ((b &&& 31).toBitVec.smod 32#32) = _
    rw [BitVec.shiftLeft_eq', hmod]
    rfl
  | right =>
    show a.toBitVec.sshiftRight' ((b &&& 31).toBitVec.smod 32#32) = _
    rw [BitVec.sshiftRight_eq', hmod]
    rfl
  | unsignedRight =>
    show a.toBitVec >>> ((b &&& 31).toBitVec % 32#32) = _
    rw [BitVec.ushiftRight_eq', BitVec.toNat_umod, toNat_and_31, show (32#32).toNat = 32 from rfl,
      Nat.mod_eq_of_lt hlt]
    rfl

theorem holds_eq_compares (comparison : Comparison) (a b : Int32) :
    comparison.holds a b = compares comparison a b := by
  cases comparison with
  | eq => simp [Comparison.holds, compares, Int32.toInt_inj, Bool.beq_eq_decide_eq]
  | ne => simp [Comparison.holds, compares, Int32.toInt_inj, bne, Bool.beq_eq_decide_eq]
  | lt => simp [Comparison.holds, compares, Int32.lt_iff_toInt_lt]
  | ge => simp [Comparison.holds, compares, Int32.le_iff_toInt_le]
  | gt => simp [Comparison.holds, compares, Int32.lt_iff_toInt_lt]
  | le => simp [Comparison.holds, compares, Int32.le_iff_toInt_le]

theorem compares_self (comparison : Comparison) (a : Int32) :
    compares comparison a a = comparison.isReflexive := by
  cases comparison <;> simp [compares, Comparison.isReflexive]

theorem compareLongs_eq (a b : Int64) : compareLongs a b = order a b := by
  rw [compareLongs, order]
  rcases Int.lt_trichotomy a.toInt b.toInt with h | h | h
  · rw [Int.compare_eq_lt.mpr h, if_pos (Int64.lt_iff_toInt_lt.mpr h)]
  · rw [Int.compare_eq_eq.mpr h, Int64.toInt_inj.mp h]
    simp [Int64.lt_irrefl]
  · have hnot : ¬ a < b := by
      rw [Int64.lt_iff_toInt_lt]
      omega
    rw [Int.compare_eq_gt.mpr h, if_neg hnot, if_pos (Int64.lt_iff_toInt_lt.mpr h)]

theorem bitwiseInt_eq (operator : Bitwise) (a b : Int32) :
    bitwiseInt operator a b = combineInts operator a b := by
  cases operator <;> rfl

theorem bitwiseLong_eq (operator : Bitwise) (a b : Int64) :
    bitwiseLong operator a b = combineLongs operator a b := by
  cases operator <;> rfl

end Machine

theorem Abstract.eq_of_particular? {α : Type} {name : Symbol → Option α} {a : Abstract α} {number x : α}
    (h : a.Holds name number) (hx : a.particular? = some x) : number = x := by
  cases a <;> cases hx
  exact h

namespace Value

variable {names : Naming} {v w result : Value} {a b : Int32} {x y : Int64}

theorem holds_ofInt {c : Int32} (h : result = ofInt c) :
    result.kind? = some .int ∧ result.Holds names (.int c) := by
  subst h
  exact ⟨rfl, rfl⟩

theorem holds_ofLong {c : Int64} (h : result = ofLong c) :
    result.kind? = some .long ∧ result.Holds names (.long c) := by
  subst h
  exact ⟨rfl, rfl⟩

theorem expectInt_eq_ok (hv : v.kind? = some .int) (h : v.Holds names (.int a)) :
    ∃ known, v.expectInt = .ok known ∧ ∀ number, known = some number → a = number := by
  obtain ⟨value, rfl⟩ := kind?_eq_int.mp hv
  exact ⟨value.particular?, rfl, fun number hn => Abstract.eq_of_particular? h hn⟩

theorem expectLong_eq_ok (hv : v.kind? = some .long) (h : v.Holds names (.long x)) :
    ∃ known, v.expectLong = .ok known ∧ ∀ number, known = some number → x = number := by
  obtain ⟨value, rfl⟩ := kind?_eq_long.mp hv
  exact ⟨value.particular?, rfl, fun number hn => Abstract.eq_of_particular? h hn⟩

/-- What a function of two numbers is folded to: its value when both are known, and a fixed result
when they are known to be the same. -/
def foldPair {α γ : Type} (make : γ → Value) (f : α → α → Option γ) (fixed : γ) (same : Bool) :
    Option α → Option α → Option Value
  | some x, some y => (f x y).map make
  | _, _ => if same then some (make fixed) else none

theorem eq_of_foldPair {α γ : Type} {make : γ → Value} {f : α → α → Option γ} {fixed c : γ}
    {same : Bool} {known known' : Option α} {a b : α} (ha : ∀ number, known = some number → a = number)
    (hb : ∀ number, known' = some number → b = number) (hc : f a b = some c)
    (hsame : same = true → c = fixed)
    (h : foldPair make f fixed same known known' = some result) : result = make c := by
  have hfixed (h : (if same then some (make fixed) else none) = some result) :
      result = make c := by
    split at h
    · rename_i hs
      rw [hsame hs]
      exact (Option.some.inj h).symm
    · cases h
  cases known with
  | none => exact hfixed h
  | some x =>
    cases known' with
    | none => exact hfixed h
    | some y =>
      cases ha x rfl
      cases hb y rfl
      rw [foldPair, hc] at h
      exact (Option.some.inj h).symm

theorem foldArithmetic_int {operator : Arithmetic} {c : Int32} (hc : foldInt operator a b = some c)
    (hv : v.kind? = some .int) (hw : w.kind? = some .int) (ha : v.Holds names (.int a))
    (hb : w.Holds names (.int b)) (h : foldArithmetic operator .int v w = .ok (some result)) :
    result = ofInt c := by
  obtain ⟨known, hk, hka⟩ := expectInt_eq_ok hv ha
  obtain ⟨known', hk', hkb⟩ := expectInt_eq_ok hw hb
  have hfold : foldArithmetic operator .int v w =
      .ok (foldPair ofInt (foldInt operator) 0 (operator = .sub && v.sameIdentity w) known known') := by
    simp only [foldArithmetic, hk, hk']
    cases known <;> cases known' <;> rfl
  rw [hfold] at h
  refine eq_of_foldPair hka hkb hc (fun hs => ?_) (Except.ok.inj h)
  simp only [Bool.and_eq_true, decide_eq_true_eq] at hs
  obtain ⟨rfl, hs⟩ := hs
  cases eq_of_sameIdentity hs ha hb
  cases hc
  exact Int32.sub_self a

theorem foldArithmetic_long {operator : Arithmetic} {c : Int64} (hc : foldLong operator x y = some c)
    (hv : v.kind? = some .long) (hw : w.kind? = some .long) (ha : v.Holds names (.long x))
    (hb : w.Holds names (.long y)) (h : foldArithmetic operator .long v w = .ok (some result)) :
    result = ofLong c := by
  obtain ⟨known, hk, hka⟩ := expectLong_eq_ok hv ha
  obtain ⟨known', hk', hkb⟩ := expectLong_eq_ok hw hb
  have hfold : foldArithmetic operator .long v w =
      .ok (foldPair ofLong (foldLong operator) 0 (operator = .sub && v.sameIdentity w)
        known known') := by
    simp only [foldArithmetic, hk, hk']
    cases known <;> cases known' <;> rfl
  rw [hfold] at h
  refine eq_of_foldPair hka hkb hc (fun hs => ?_) (Except.ok.inj h)
  simp only [Bool.and_eq_true, decide_eq_true_eq] at hs
  obtain ⟨rfl, hs⟩ := hs
  cases eq_of_sameIdentity hs ha hb
  cases hc
  exact Int64.sub_self x

theorem foldBitwise_int {operator : Bitwise} (hv : v.kind? = some .int) (hw : w.kind? = some .int)
    (ha : v.Holds names (.int a)) (hb : w.Holds names (.int b))
    (h : foldBitwise operator .int v w = .ok (some result)) :
    result = ofInt (Machine.combineInts operator a b) := by
  obtain ⟨known, hk, hka⟩ := expectInt_eq_ok hv ha
  obtain ⟨known', hk', hkb⟩ := expectInt_eq_ok hw hb
  have hfold : foldBitwise operator .int v w =
      .ok (foldPair ofInt (fun x y => some (bitwiseInt operator x y)) 0
        (operator = .xor && v.sameIdentity w) known known') := by
    simp only [foldBitwise, hk, hk']
    cases known <;> cases known' <;> rfl
  rw [hfold] at h
  rw [← Machine.bitwiseInt_eq]
  refine eq_of_foldPair hka hkb rfl (fun hs => ?_) (Except.ok.inj h)
  simp only [Bool.and_eq_true, decide_eq_true_eq] at hs
  obtain ⟨rfl, hs⟩ := hs
  cases eq_of_sameIdentity hs ha hb
  exact Int32.xor_self

theorem foldBitwise_long {operator : Bitwise} (hv : v.kind? = some .long)
    (hw : w.kind? = some .long) (ha : v.Holds names (.long x)) (hb : w.Holds names (.long y))
    (h : foldBitwise operator .long v w = .ok (some result)) :
    result = ofLong (Machine.combineLongs operator x y) := by
  obtain ⟨known, hk, hka⟩ := expectLong_eq_ok hv ha
  obtain ⟨known', hk', hkb⟩ := expectLong_eq_ok hw hb
  have hfold : foldBitwise operator .long v w =
      .ok (foldPair ofLong (fun x y => some (bitwiseLong operator x y)) 0
        (operator = .xor && v.sameIdentity w) known known') := by
    simp only [foldBitwise, hk, hk']
    cases known <;> cases known' <;> rfl
  rw [hfold] at h
  rw [← Machine.bitwiseLong_eq]
  refine eq_of_foldPair hka hkb rfl (fun hs => ?_) (Except.ok.inj h)
  simp only [Bool.and_eq_true, decide_eq_true_eq] at hs
  obtain ⟨rfl, hs⟩ := hs
  cases eq_of_sameIdentity hs ha hb
  exact Int64.xor_self

theorem foldShift_int {operator : Shift} (hv : v.kind? = some .int) (hw : w.kind? = some .int)
    (ha : v.Holds names (.int a)) (hb : w.Holds names (.int b))
    (h : foldShift operator .int v w = .ok (some result)) :
    result = ofInt (Machine.shiftBits operator a b) := by
  obtain ⟨known, hk, hka⟩ := expectInt_eq_ok hv ha
  obtain ⟨known', hk', hkb⟩ := expectInt_eq_ok hw hb
  have hfold : foldShift operator .int v w =
      .ok (foldPair ofInt (fun x y => some (shiftInt operator x y)) 0 false known known') := by
    simp only [foldShift, hk, hk']
    cases known <;> cases known' <;> rfl
  rw [hfold] at h
  rw [← Machine.shiftInt_eq]
  exact eq_of_foldPair hka hkb rfl (by simp) (Except.ok.inj h)

theorem foldCompareLong_eq (hv : v.kind? = some .long) (hw : w.kind? = some .long)
    (ha : v.Holds names (.long x)) (hb : w.Holds names (.long y))
    (h : foldCompareLong v w = .ok (some result)) : result = ofInt (Machine.order x y) := by
  obtain ⟨known, hk, hka⟩ := expectLong_eq_ok hv ha
  obtain ⟨known', hk', hkb⟩ := expectLong_eq_ok hw hb
  have hfold : foldCompareLong v w =
      .ok (foldPair ofInt (fun x y => some (compareLongs x y)) 0 (v.sameIdentity w)
        known known') := by
    simp only [foldCompareLong, hk, hk']
    cases known <;> cases known' <;> rfl
  rw [hfold] at h
  rw [← Machine.compareLongs_eq]
  refine eq_of_foldPair hka hkb rfl (fun hs => ?_) (Except.ok.inj h)
  cases eq_of_sameIdentity hs ha hb
  simp [compareLongs, Int64.lt_irrefl]

/-- A function of one number that is folded when it is known. -/
theorem eq_of_fold₁ {α : Type} (expect : Value → Except Failure (Option α)) (f : α → Value) {a : α}
    (hv : ∃ known, expect v = .ok known ∧ ∀ number, known = some number → a = number)
    (h : (do return (← expect v).map f : Except Failure (Option Value)) = .ok (some result)) :
    result = f a := by
  obtain ⟨known, hk, hka⟩ := hv
  rw [hk] at h
  cases known with
  | none => cases h
  | some number =>
    cases hka number rfl
    exact (Option.some.inj (Except.ok.inj h)).symm

end Value

end JvmTrim
