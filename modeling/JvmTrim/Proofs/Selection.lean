import Mathlib.Data.List.Induction
import JvmTrim.Proofs.Balance
import JvmTrim.Proofs.Layout

/-!
# The words that are left on the stack

The simplified body runs on a stack from which words are missing. What is left are the words at the
positions that are present, in their order, and a word whose number matters still holds it; any other
word may hold anything. The code that repairs emit is executed on such stacks here: pops take just the
words that are present of those an instruction takes, a planned stack manipulation turns the words
that are left of its inputs into those that are left of its outputs, a push gives its constant and a
load the variable that it names.

## Main definitions

* `Selects`: the words of a stack that are left of another one

## Main results

* `Machine.performs_popsDownTo`: pops of present words
* `Machine.performs_of_moveAll?`: a planned stack manipulation
* `Machine.execute_of_gives`, `Machine.execute_load`: pushes and loads
-/

namespace JvmTrim

/-! ## Selections -/

/-- Whether a list of words, the top first and the lowest one at position `base`, is what is left of
another one: the words at the positions that are present, the needed ones unchanged. -/
inductive Selects {α : Type} (present needed : Nat → Prop) (base : Nat) :
    List α → List α → Prop where
  | nil : Selects present needed base [] []
  | keep {word word' : α} {words words' : List α} (hpresent : present (base + words.length))
      (hneeded : needed (base + words.length) → word' = word)
      (h : Selects present needed base words words') :
      Selects present needed base (word :: words) (word' :: words')
  | skip {word : α} {words words' : List α} (habsent : ¬ present (base + words.length))
      (h : Selects present needed base words words') :
      Selects present needed base (word :: words) words'

namespace Selects

variable {α : Type} {present needed present' needed' : Nat → Prop} {base : Nat}
  {words words' top rest : List α}

theorem append_iff : Selects present needed base (top ++ rest) words' ↔ ∃ top' rest',
    words' = top' ++ rest' ∧ Selects present needed (base + rest.length) top top' ∧
      Selects present needed base rest rest' := by
  constructor
  · intro h
    induction top generalizing words' with
    | nil => exact ⟨[], words', rfl, .nil, h⟩
    | cons word top ih =>
      have hposition : base + (top ++ rest).length = base + rest.length + top.length := by
        rw [List.length_append]
        omega
      rw [List.cons_append] at h
      cases h with
      | keep hpresent hneeded h =>
        rw [hposition] at hpresent hneeded
        obtain ⟨top', rest', rfl, htop, hrest⟩ := ih h
        exact ⟨_ :: top', rest', rfl, .keep hpresent hneeded htop, hrest⟩
      | skip habsent h =>
        rw [hposition] at habsent
        obtain ⟨top', rest', rfl, htop, hrest⟩ := ih h
        exact ⟨top', rest', rfl, .skip habsent htop, hrest⟩
  · rintro ⟨top', rest', rfl, htop, hrest⟩
    have hposition (top : List α) :
        base + rest.length + top.length = base + (top ++ rest).length := by
      rw [List.length_append]
      omega
    induction htop with
    | nil => exact hrest
    | keep hpresent hneeded _ ih =>
      rw [hposition] at hpresent hneeded
      exact .keep hpresent hneeded ih
    | skip habsent _ ih =>
      rw [hposition] at habsent
      exact .skip habsent ih

/-- Which words are left depends on the positions of the words only. -/
theorem mono (h : Selects present needed base words words')
    (hpresent : ∀ position, base ≤ position → position < base + words.length →
      (present position ↔ present' position))
    (hneeded : ∀ position, base ≤ position → position < base + words.length →
      needed' position → needed position) : Selects present' needed' base words words' := by
  induction h with
  | nil => exact .nil
  | @keep word word' words words' hp hn _ ih =>
    have hlt : base + words.length < base + (word :: words).length := by simp
    refine .keep ((hpresent _ (by omega) hlt).mp hp)
      (fun hneed => hn (hneeded _ (by omega) hlt hneed)) (ih ?_ ?_)
    · exact fun position hge h => hpresent position hge (by omega)
    · exact fun position hge h => hneeded position hge (by omega)
  | @skip word words words' ha _ ih =>
    have hlt : base + words.length < base + (word :: words).length := by simp
    refine .skip (fun hp => ha ((hpresent _ (by omega) hlt).mpr hp)) (ih ?_ ?_)
    · exact fun position hge h => hpresent position hge (by omega)
    · exact fun position hge h => hneeded position hge (by omega)

/-- Words that are all present and needed are all there. -/
theorem eq_of_needed (h : Selects present needed base words words')
    (hall : ∀ position, base ≤ position → position < base + words.length →
      present position ∧ needed position) : words' = words := by
  induction h with
  | nil => rfl
  | @keep word word' words words' _ hn _ ih =>
    have hlt : base + words.length < base + (word :: words).length := by simp
    rw [hn (hall _ (by omega) hlt).2, ih fun position hge h => hall position hge (by omega)]
  | @skip word words words' ha _ _ =>
    exact absurd (hall _ (by omega) (by simp)).1 ha

theorem nil_of_absent
    (hall : ∀ position, base ≤ position → position < base + words.length → ¬ present position) :
    Selects present needed base words [] := by
  induction words with
  | nil => exact .nil
  | cons word words ih =>
    exact .skip (hall _ (by omega) (by simp))
      (ih fun position hge h => hall position hge (by simp only [List.length_cons]; omega))

/-- Words that are all present, as many as there were, are left if the needed ones are unchanged. -/
theorem of_present (hlength : words'.length = words.length)
    (hall : ∀ position, base ≤ position → position < base + words.length → present position)
    (heq : ∀ position, base ≤ position → position < base + words.length → needed position →
      words' = words) : Selects present needed base words words' := by
  induction words generalizing words' with
  | nil =>
    rw [List.length_eq_zero_iff.mp hlength]
    exact .nil
  | cons word words ih =>
    obtain ⟨word', words', rfl⟩ := List.exists_cons_of_length_pos (by rw [hlength]; simp)
    refine .keep (hall _ (by omega) (by simp)) (fun hn => ?_) (ih (by simpa using hlength) ?_ ?_)
    · exact (List.cons.inj (heq _ (by omega) (by simp) hn)).1
    · exact fun position hge h => hall position hge (by simp only [List.length_cons]; omega)
    · exact fun position hge h hn =>
        (List.cons.inj (heq position hge (by simp only [List.length_cons]; omega) hn)).2

/-- As many words are left as are present. -/
theorem presentBelow_eq {marks : Marks} {stack : Stack} {needed : Nat → Prop}
    {words words' : List α}
    (h : Selects (marks.wordPresent stack · = true) needed base words words') :
    marks.presentBelow stack (base + words.length) =
      marks.presentBelow stack base + words'.length := by
  induction h with
  | nil => rfl
  | keep hp _ _ ih =>
    rw [List.length_cons, List.length_cons, ← Nat.add_assoc, Marks.presentBelow_succ, if_pos hp, ih]
    omega
  | skip ha _ ih =>
    rw [List.length_cons, ← Nat.add_assoc, Marks.presentBelow_succ, if_neg ha, ih, Nat.add_zero]

/-- The words that are left are those at the positions that are present, in their order. -/
theorem exists_cells [Inhabited α] {p : Nat → Bool} (h : Selects (p · = true) needed base words words') :
    ∃ g : Nat → α, words' = (((List.range words.length).filter fun k => p (base + k)).map g).reverse ∧
      ∀ k < words.length, p (base + k) = true → needed (base + k) →
        words[words.length - 1 - k]? = some (g k) := by
  induction h with
  | nil => exact ⟨fun _ => default, rfl, by simp⟩
  | @keep word word' words words' hpresent hneeded _ ih =>
    obtain ⟨g, rfl, hg⟩ := ih
    refine ⟨fun k => if k = words.length then word' else g k, ?_, fun k hk hp hn => ?_⟩
    · have hsame : ∀ k ∈ (List.range words.length).filter fun k => p (base + k),
          (if k = words.length then word' else g k) = g k := by
        intro k hk
        have hlt := List.mem_range.mp (List.mem_filter.mp hk).1
        exact if_neg (Nat.ne_of_lt hlt)
      rw [List.length_cons, List.range_succ, List.filter_append, List.map_append,
        List.reverse_append, List.map_congr_left hsame]
      simp [hpresent]
    · rw [List.length_cons] at hk ⊢
      dsimp only
      by_cases hlast : k = words.length
      · subst hlast
        rw [if_pos rfl, ← hneeded hn]
        simp
      · rw [if_neg hlast, ← hg k (by omega) hp hn,
          show words.length + 1 - 1 - k = words.length - 1 - k + 1 by omega,
          List.getElem?_cons_succ]
  | @skip word words words' habsent _ ih =>
    obtain ⟨g, rfl, hg⟩ := ih
    refine ⟨g, ?_, fun k hk hp hn => ?_⟩
    · rw [List.length_cons, List.range_succ, List.filter_append]
      simp [habsent]
    · rw [List.length_cons] at hk ⊢
      have hlast : k ≠ words.length := by
        rintro rfl
        exact habsent hp
      rw [← hg k (by omega) hp hn,
        show words.length + 1 - 1 - k = words.length - 1 - k + 1 by omega,
        List.getElem?_cons_succ]

/-- Copies of words at the positions that are present. -/
theorem of_copies {p : Nat → Bool} {f g : Nat → α} {sources : List Nat}
    (h : ∀ k source, sources[k]? = some source → p (base + k) = true → needed (base + k) →
      g source = f source) :
    Selects (p · = true) needed base (sources.map f).reverse
      ((sources.zipIdx.filter fun entry => p (base + entry.2)).map (g ·.1)).reverse := by
  induction sources using List.reverseRecOn with
  | nil => exact .nil
  | append_singleton sources source ih =>
    have ih := ih fun k s hs => h k s (by
      rw [List.getElem?_append_left (List.getElem?_eq_some_iff.mp hs).1, hs])
    have hlength : (sources.map f).reverse.length = sources.length := by simp
    have hfilter : ((List.zipIdx [source] (0 + sources.length)).filter fun entry =>
        p (base + entry.2)) = if p (base + sources.length) then [(source, sources.length)] else [] := by
      rw [List.zipIdx_singleton, Nat.zero_add, List.filter_singleton, Bool.cond_eq_ite]
    rw [List.map_append, List.reverse_append, List.zipIdx_append, List.filter_append,
      List.map_append, List.reverse_append, hfilter]
    by_cases hp : p (base + sources.length) = true
    · have hlast := h sources.length source (by simp) hp
      rw [if_pos hp]
      rw [← hlength] at hp hlast
      exact .keep hp hlast ih
    · rw [if_neg hp]
      rw [← hlength] at hp
      exact .skip hp ih

end Selects

namespace Machine

variable {pool : ConstantPool} {instruction : Instruction} {store : Store}
  {words locals : List Cell}

/-! ## Pops and planned stack manipulations -/

theorem execute_of_shuffle {move : Shuffle} {copies : List Cell}
    (hop : instruction.operation = .shuffle move) (hc : move.copied? store.stack = some copies) :
    execute pool instruction store =
      .ok (none, ⟨copies ++ store.stack.drop move.pops, store.locals⟩) := by
  have hshuffle : shuffle move store = .ok ((), ⟨copies ++ store.stack.drop move.pops, store.locals⟩) := by
    unfold shuffle
    rw [hc]
  unfold execute perform
  simp only [hop]
  exact StateT.bind_eq_ok.mpr ⟨_, _, hshuffle, rfl⟩

theorem execute_popOf {count : Nat} (hcount : count = 1 ∨ count = 2)
    (hle : count ≤ store.stack.length) :
    execute pool (popOf count) store = .ok (none, ⟨store.stack.drop count, store.locals⟩) := by
  have hop : (popOf count).operation = .shuffle (Shuffle.popOf count) := by
    rw [popOf_eq]
    exact operation_ofShuffle _
  have hpops : (Shuffle.popOf count).pops = count := by rcases hcount with rfl | rfl <;> rfl
  have hcopied : (Shuffle.popOf count).copied? store.stack = some [] := by
    unfold Shuffle.copied?
    rw [if_pos (by rw [hpops]; exact hle)]
    rcases hcount with rfl | rfl <;> rfl
  rw [execute_of_shuffle hop hcopied, hpops, List.nil_append]

theorem eq_popOf_of_mem {marks : Marks} {stack : Stack} {bottom height : Nat}
    (h : instruction ∈ marks.popsDownTo stack bottom height) :
    ∃ count, (count = 1 ∨ count = 2) ∧ instruction = popOf count := by
  fun_induction Marks.popsDownTo marks stack bottom height with
  | case1 => cases h
  | case2 => exact ⟨1, .inl rfl, List.mem_singleton.mp h⟩
  | case3 => cases h
  | case4 => cases h
  | case5 top hlt isWide pops ihWide ihSingle =>
    rcases List.mem_append.mp h with h | h
    · simp only [pops] at h
      split at h
      · refine ⟨_, ?_, List.mem_singleton.mp h⟩
        split <;> simp
      · cases h
    · split at h
      · exact ihWide h
      · exact ihSingle h

theorem le_of_heightAfter?_popOf {count floor height lower : Nat} {rest : List Instruction}
    (hcount : count = 1 ∨ count = 2)
    (h : heightAfter? pool floor (popOf count :: rest) height = some lower) :
    floor + count ≤ height := by
  by_contra hnot
  have hstep : (popOf count).heightAfter? pool floor height = none := by
    unfold Instruction.heightAfter?
    rw [stackEffect_popOf hcount]
    exact if_neg hnot
  rw [heightAfter?, List.foldlM_cons, hstep] at h
  cases h

/-- Pops take as many words as they lower the stack by. -/
theorem performs_of_pops {code : List Instruction} {floor height lower : Nat} (locals : List Cell)
    (hcode : ∀ instruction ∈ code, ∃ count, (count = 1 ∨ count = 2) ∧ instruction = popOf count)
    (hheight : heightAfter? pool floor code height = some lower)
    (hlength : words.length = height) :
    lower ≤ height ∧ Performs pool code ⟨words, locals⟩ ⟨words.drop (height - lower), locals⟩ := by
  induction code generalizing words height with
  | nil =>
    cases hheight
    rw [Nat.sub_self]
    exact ⟨Nat.le_refl _, .nil _⟩
  | cons instruction rest ih =>
    rw [List.forall_mem_cons] at hcode
    obtain ⟨⟨count, hcount, rfl⟩, hrest⟩ := hcode
    have hle := le_of_heightAfter?_popOf hcount hheight
    rw [heightAfter?_popOf hcount rest hle] at hheight
    obtain ⟨hlower, hperforms⟩ := @ih (words.drop count) _ hrest hheight
      (by rw [List.length_drop, hlength])
    refine ⟨by omega, .cons (execute_popOf hcount (by simp only; omega)) ?_⟩
    rw [List.drop_drop, show count + (height - count - lower) = height - lower by omega]
      at hperforms
    exact hperforms

/-- **Pops take just the words that are present** between two heights. -/
theorem performs_popsDownTo {marks : Marks} {stack : Stack} {needed : Nat → Prop}
    {top top' rest' : List Cell} {bottom : Nat} (pool : ConstantPool)
    (hhalves : marks.KeepsHalves stack)
    (h : Selects (marks.wordPresent stack · = true) needed bottom top top')
    (hrest : rest'.length = marks.presentBelow stack bottom) :
    Performs pool (marks.popsDownTo stack bottom (bottom + top.length)) ⟨top' ++ rest', locals⟩
      ⟨rest', locals⟩ := by
  have hlength : (top' ++ rest').length = marks.presentBelow stack (bottom + top.length) := by
    rw [h.presentBelow_eq, List.length_append, hrest, Nat.add_comm]
  have hperforms := (performs_of_pops locals (fun _ => eq_popOf_of_mem)
    (Marks.heightAfter?_popsDownTo pool hhalves bottom (bottom + top.length) (by omega))
    hlength).2
  rw [← hlength, List.length_append, ← hrest, Nat.add_sub_cancel, List.drop_left] at hperforms
  exact hperforms

/-- Moving words moves the cells that they stand for. -/
theorem copied?_of_moveWords? {move : Shuffle} {words moved : List Word}
    (h : move.moveWords? words = some moved) (g : Word → Cell) (rest : List Cell) :
    ∃ copies, move.copied? ((words.map g).reverse ++ rest) = some copies ∧
      copies ++ ((words.map g).reverse ++ rest).drop move.pops = (moved.map g).reverse ++ rest := by
  obtain ⟨-, low, high, given, rfl, hhigh, hgiven, rfl⟩ := Shuffle.moveWords?_eq_some_iff.mp h
  have hgives : move.outputs.mapM ((high.map g)[·]?) = some (given.map g) :=
    mapM_eq_some_iff.mpr (List.forall₂_map_right_iff.mpr
      (hgiven.imp fun source word hword => by rw [List.getElem?_map, hword]; rfl))
  have hreverse : ((low ++ high).map g).reverse ++ rest =
      (high.map g).reverse ++ ((low.map g).reverse ++ rest) := by
    rw [List.map_append, List.reverse_append, List.append_assoc]
  have hpops : move.pops = (high.map g).reverse.length := by
    rw [List.length_reverse, List.length_map, hhigh]
  refine ⟨(given.map g).reverse, ?_, ?_⟩
  · unfold Shuffle.copied?
    rw [hreverse, if_pos (by rw [List.length_append, ← hpops]; omega), hpops, List.take_left,
      List.reverse_reverse, hgives]
    rfl
  · rw [hreverse, hpops, List.drop_left, List.map_append, List.reverse_append, List.append_assoc]

/-- **A planned stack manipulation** turns the cells that its inputs stand for into those that its
outputs stand for. -/
theorem performs_of_moveAll? {plan : List Shuffle} {inputs outputs : List Word}
    (pool : ConstantPool) (h : Shuffle.moveAll? plan inputs = some outputs) (g : Word → Cell)
    (rest locals : List Cell) :
    Performs pool (plan.map fun move => .simple (Opcode.ofShuffle move))
      ⟨(inputs.map g).reverse ++ rest, locals⟩ ⟨(outputs.map g).reverse ++ rest, locals⟩ := by
  induction plan generalizing inputs with
  | nil =>
    cases h
    exact .nil _
  | cons move plan ih =>
    obtain ⟨moved, hmove, hrest⟩ := Option.bind_eq_some_iff.mp h
    obtain ⟨copies, hcopied, hcopies⟩ := copied?_of_moveWords? hmove g rest
    refine .cons (execute_of_shuffle (operation_ofShuffle move) hcopied) ?_
    simp only [hcopies]
    exact ih hrest

/-! ## Pushes and loads -/

/-- **A push gives its constant.** -/
theorem execute_of_gives {pool' : ConstantPool} {value : Value} {word : Cell}
    (h : instruction.Gives pool value) (hextends : pool.Extends pool')
    (hlength : pool.length ≤ 65536) (hword : value.constant? = some word) :
    execute pool' instruction store = .ok (none, ⟨word.pushed ++ store.stack, store.locals⟩) := by
  unfold execute perform
  cases h with
  | null hop => cases hword
  | float hop => cases hword
  | double hop => cases hword
  | int hop | long hop =>
    cases hword
    simp only [hop]
    rfl
  | byte hop ho | short hop ho =>
    cases hword
    simp only [hop, ho]
    rfl
  | @entry _ constant index hentry hop ho hget =>
    have hget' : pool'.get index = .ok constant :=
      ConstantPool.stable_get index _ _ _ hextends (hget hlength)
    simp only [hop, loadConstant, ho, hget']
    unfold Value.constant? at hword
    split at hword
    · cases hword
      cases hentry
      rfl
    · cases hword
      cases hentry
      rfl
    · cases hword

theorem operation_of_localAccess? {kind : Kind} {index : UInt16}
    (h : instruction.localAccess? = some (.load, kind, index)) :
    ∃ slot, instruction.operation = .load kind slot ∧
      slot.getD instruction.operandSlot = index := by
  unfold Instruction.localAccess? at h
  split at h
  · rename_i kind' slot hop
    cases h
    exact ⟨slot, hop, rfl⟩
  · cases h
  · cases h

/-- **A load gives the number in its variable.** -/
theorem execute_of_load {kind : Kind} {index : UInt16} {word : Cell}
    (h : instruction.localAccess? = some (.load, kind, index)) (hkind : word.kind? = some kind)
    (hread : store.locals[index.toNat]? = some word) :
    execute pool instruction store = .ok (none, ⟨word.pushed ++ store.stack, store.locals⟩) := by
  obtain ⟨slot, hop, rfl⟩ := operation_of_localAccess? h
  unfold execute perform
  cases word with
  | int value =>
    cases hkind
    simp only [hop, readInt, hread, bind, StateT.bind, Except.bind]
    rfl
  | long value =>
    cases hkind
    simp only [hop, readLong, hread, bind, StateT.bind, Except.bind]
    rfl
  | half => cases hkind
  | unset => cases hkind

end Machine

end JvmTrim
