import Mathlib.Data.List.Find
import JvmTrim.Proofs.Locality

/-!
# Running emitted code

What an edit emits for an instruction lies in one piece in the edited body, from the position that the
offset of the instruction moves to up to the position that the offset behind it moves to. Executing
the piece therefore takes a run from the one position to the other, or along the one branch in it to
the position that the target moves to. Nothing else about the bytes of an edited body matters to a
run.

## Main definitions

* `Machine.Finishes`: a run that ends with an outcome
* `Machine.Performs`: executing instructions one after another
* `Edit.moved`: the position that an offset moves to
* `Edit.Laid`: emitted instructions that lie in one piece

## Main results

* `Edit.laid_of_apply`: what is emitted for an instruction lies in one piece
* `Edit.Laid.finishes_of_performs`, `Edit.Laid.finishes_of_branch`: executing such a piece
-/

namespace JvmTrim

namespace Machine

variable {pool : ConstantPool} {body : List (Nat × Instruction)} {state next : State}
  {outcome : Outcome} {store middle store' : Store} {code code' : List Instruction}

/-- Whether a run from a state ends with an outcome. -/
def Finishes (pool : ConstantPool) (body : List (Nat × Instruction)) (state : State)
    (outcome : Outcome) : Prop :=
  ∃ count, run pool body count state = .error (.finished outcome)

theorem Finishes.of_step (hf : Finishes pool body next outcome)
    (h : step pool body state = .ok next) : Finishes pool body state outcome := by
  obtain ⟨count, hcount⟩ := hf
  refine ⟨count + 1, ?_⟩
  rw [run, h]
  exact hcount

theorem finishes_of_finished (h : step pool body state = .error (.finished outcome)) :
    Finishes pool body state outcome := by
  refine ⟨1, ?_⟩
  rw [run, h]
  rfl

/-- Executes instructions one after another, each of which goes on with the next one. -/
inductive Performs (pool : ConstantPool) : List Instruction → Store → Store → Prop where
  | nil (store : Store) : Performs pool [] store store
  | cons {instruction : Instruction} {rest : List Instruction} {store middle store' : Store}
      (h : execute pool instruction store = .ok (none, middle))
      (hrest : Performs pool rest middle store') : Performs pool (instruction :: rest) store store'

theorem Performs.append (h : Performs pool code store middle)
    (h' : Performs pool code' middle store') : Performs pool (code ++ code') store store' := by
  induction h with
  | nil => exact h'
  | cons hfirst _ ih => exact .cons hfirst (ih h')

theorem performs_singleton {instruction : Instruction}
    (h : execute pool instruction store = .ok (none, store')) :
    Performs pool [instruction] store store' := .cons h (.nil _)

end Machine

namespace Edit

open Machine

/-- The position that an offset moves to, given which offset each position was emitted for. -/
def moved (placed : List (Nat × Nat)) (size offset : Nat) : Nat :=
  firstAtOrBehind placed size offset

/-- Whether instructions emitted for some offsets lie in one piece from a position up to another. -/
inductive Laid (placed : List (Nat × Nat)) (size : Nat) (body : List (Nat × Instruction)) :
    Nat → List (Nat × Instruction) → Nat → Prop where
  | nil (position : Nat) : Laid placed size body position [] position
  | cons {position stop : Nat} {source : Nat × Instruction} {result : Instruction}
      {rest : List (Nat × Instruction)} (hlookup : body.lookup position = some result)
      (hstands : Stands placed size source (position, result))
      (hrest : Laid placed size body (position + result.length position) rest stop) :
      Laid placed size body position (source :: rest) stop

namespace Laid

variable {placed : List (Nat × Nat)} {size position stop origin : Nat}
  {body : List (Nat × Instruction)} {pool : ConstantPool} {store store' : Store}
  {outcome : Outcome} {code : List Instruction} {instruction : Instruction}
  {first second : List (Nat × Instruction)}

theorem append_iff : Laid placed size body position (first ++ second) stop ↔ ∃ middle,
    Laid placed size body position first middle ∧ Laid placed size body middle second stop := by
  constructor
  · intro h
    induction first generalizing position with
    | nil => exact ⟨position, .nil position, h⟩
    | cons source rest ih =>
      cases h with
      | cons hlookup hstands hrest =>
        obtain ⟨middle, hfirst, hsecond⟩ := ih hrest
        exact ⟨middle, .cons hlookup hstands hfirst, hsecond⟩
  · rintro ⟨middle, hfirst, hsecond⟩
    induction hfirst with
    | nil => exact hsecond
    | cons hlookup hstands _ ih => exact .cons hlookup hstands (ih hsecond)

/-- Where a piece ends is decided by where it starts. -/
theorem unique {items : List (Nat × Instruction)} {stop' : Nat}
    (h : Laid placed size body position items stop)
    (h' : Laid placed size body position items stop') : stop = stop' := by
  induction h with
  | nil =>
    cases h'
    rfl
  | cons hlookup _ _ ih =>
    cases h' with
    | cons hlookup' _ hrest' =>
      cases hlookup.symm.trans hlookup'
      exact ih hrest'

theorem le {items : List (Nat × Instruction)} (h : Laid placed size body position items stop) :
    position ≤ stop := by
  induction h with
  | nil => exact Nat.le_refl _
  | cons _ _ _ ih => exact (Nat.le_add_right ..).trans ih

/-- A piece that holds instructions has some extent. -/
theorem lt_of_ne_nil {items : List (Nat × Instruction)}
    (h : Laid placed size body position items stop) (hne : items ≠ []) : position < stop := by
  cases h with
  | nil => exact absurd rfl hne
  | @cons _ _ _ result _ _ _ hrest =>
    have := result.length_pos position
    have := hrest.le
    omega

/-- Executing a piece takes a run to its end. -/
theorem finishes_of_performs (h : Laid placed size body position (code.map (origin, ·)) stop)
    (hp : Performs pool code store store') (hf : Finishes pool body ⟨store', stop⟩ outcome) :
    Finishes pool body ⟨store, position⟩ outcome := by
  induction hp generalizing position with
  | nil =>
    cases h
    exact hf
  | @cons instruction rest store middle store' hexecute _ ih =>
    cases h with
    | @cons _ _ _ result _ hlookup hstands hrest =>
      refine (ih hrest hf).of_step ?_
      rw [← execute_eq_of_form hstands.form_eq] at hexecute
      simp only [step, hlookup, hexecute, resolve, bind, Except.bind, pure, Except.pure]

/-- A branch of an emitted instruction leads to the position that its target moves to. -/
theorem finishes_of_branch {rest : List (Nat × Instruction)} {place target : Nat}
    {displacement : Int32}
    (h : Laid placed size body position ((origin, instruction) :: rest) stop)
    (hexecute : execute pool instruction store = .ok (some place, store'))
    (hd : instruction.displacements[place]? = some displacement)
    (htarget : (origin : Int) + displacement.toInt = target)
    (hf : Finishes pool body ⟨store', moved placed size target⟩ outcome) :
    Finishes pool body ⟨store, position⟩ outcome := by
  cases h with
  | @cons _ _ _ result _ hlookup hstands hrest =>
    refine hf.of_step ?_
    rw [← execute_eq_of_form hstands.form_eq] at hexecute
    have hlt : place < result.displacements.length := by
      rw [← hstands.targets.length_eq]
      exact (List.getElem?_eq_some_iff.mp hd).1
    have hnew := List.getElem?_eq_getElem hlt
    have hsum := rel_of_forall₂ hstands.targets hd hnew
    simp only [htarget] at hsum
    have hresolve : resolve result position (some place) = .ok (moved placed size target) := by
      simp only [resolve, hnew, hsum, Int.toNat_natCast, moved]
      exact if_neg (by omega)
    simp only [step, hlookup, hexecute, hresolve, bind, Except.bind, pure, Except.pure]

/-- An emitted instruction that ends the run. -/
theorem finishes_of_finished {rest : List (Nat × Instruction)}
    (h : Laid placed size body position ((origin, instruction) :: rest) stop)
    (hexecute : execute pool instruction store = .error (.finished outcome)) :
    Finishes pool body ⟨store, position⟩ outcome := by
  cases h with
  | cons hlookup hstands _ =>
    refine Machine.finishes_of_finished ?_
    rw [← execute_eq_of_form hstands.form_eq] at hexecute
    simp only [step, hlookup, hexecute, bind, Except.bind]

end Laid

/-- Instructions that lie one after another lie in one piece, and so does every part of them. -/
theorem laid_of_offsets {placed : List (Nat × Nat)} {size offset stop : Nat}
    {body first second : List (Nat × Instruction)} {relocated : List Instruction}
    (hbody : ∀ entry ∈ (offsetsFrom offset relocated).zip (relocated.map Instruction.stored),
      body.lookup entry.1 = some entry.2)
    (hstands : List.Forall₂ (Stands placed size) (first ++ second)
      ((offsetsFrom offset relocated).zip (relocated.map Instruction.stored)))
    (hstop : (offsetsFrom offset relocated)[relocated.length]? = some stop) :
    ∃ position, (offsetsFrom offset relocated)[first.length]? = some position ∧
      Laid placed size body offset first position ∧ Laid placed size body position second stop := by
  induction relocated generalizing offset first second with
  | nil =>
    rw [List.map_nil, List.zip_nil_right, List.forall₂_nil_right_iff, List.append_eq_nil_iff]
      at hstands
    obtain ⟨rfl, rfl⟩ := hstands
    exact ⟨stop, hstop, by cases hstop; exact .nil _, .nil _⟩
  | cons instruction rest ih =>
    simp only [offsetsFrom, List.map_cons, List.zip_cons_cons, List.forall_mem_cons,
      List.length_cons, List.getElem?_cons_succ] at hbody hstands hstop
    have hlength := Instruction.length_stored instruction offset
    cases first with
    | nil =>
      cases second with
      | nil => cases hstands
      | cons source second =>
        obtain ⟨hfirst, hrest⟩ := List.forall₂_cons.mp hstands
        obtain ⟨position, hposition, hnil, hsecond⟩ := @ih _ [] second hbody.2 hrest hstop
        cases hnil
        exact ⟨offset, rfl, .nil _, .cons hbody.1 hfirst (hlength ▸ hsecond)⟩
    | cons source first =>
      obtain ⟨hfirst, hrest⟩ := List.forall₂_cons.mp hstands
      obtain ⟨position, hposition, hlaid, hsecond⟩ := ih hbody.2 hrest hstop
      exact ⟨position, hposition, .cons hbody.1 hfirst (hlength ▸ hlaid), hsecond⟩

theorem getElem?_zero_offsetsFrom (offset : Nat) (instructions : List Instruction) :
    (offsetsFrom offset instructions)[0]? = some offset := by
  cases instructions <;> rfl

theorem lookup_of_mem {α : Type} {entries : List (Nat × α)}
    (h : entries.Pairwise fun a b => a.1 < b.1) {entry : Nat × α} (hm : entry ∈ entries) :
    entries.lookup entry.1 = some entry.2 := by
  induction entries with
  | nil => cases hm
  | cons head tail ih =>
    rw [List.pairwise_cons] at h
    rcases List.mem_cons.mp hm with rfl | hm
    · rw [List.lookup_cons, beq_self_eq_true]
    · have hne : (entry.1 == head.1) = false :=
        beq_eq_false_iff_ne.mpr (Nat.ne_of_gt (h.1 entry hm))
      rw [List.lookup_cons, hne]
      exact ih h.2 hm

theorem emission_append (edit : Edit) (first second : List (Nat × Instruction)) :
    edit.emission (first ++ second) = edit.emission first ++ edit.emission second :=
  List.flatMap_append ..

theorem mem_emission {edit : Edit} {instructions : List (Nat × Instruction)}
    {entry : Nat × Instruction} : entry ∈ edit.emission instructions ↔ ∃ instruction,
      (entry.1, instruction) ∈ instructions ∧
        entry.2 ∈ (edit.site entry.1).emitted instruction := by
  obtain ⟨offset, emitted⟩ := entry
  simp only [emission, List.mem_flatMap, List.mem_map, Prod.mk.injEq, Prod.exists]
  constructor
  · rintro ⟨offset, instruction, hmem, emitted, hemitted, rfl, rfl⟩
    exact ⟨instruction, hmem, hemitted⟩
  · rintro ⟨instruction, hmem, hemitted⟩
    exact ⟨offset, instruction, hmem, emitted, hemitted, rfl, rfl⟩

/-- What is emitted before an instruction has smaller offsets, and what is emitted behind it has
offsets from its end on. -/
theorem emission_around {edit : Edit} {code : List UInt8} {front back : List (Nat × Instruction)}
    {offset : Nat} {instruction : Instruction}
    (hd : decodeAll code = .ok (front ++ (offset, instruction) :: back)) :
    (∀ entry ∈ edit.emission front, entry.1 < offset) ∧
      ∀ entry ∈ edit.emission back, offset + instruction.length offset ≤ entry.1 := by
  obtain ⟨-, hback, hfront⟩ := List.pairwise_append.mp (disjoint_of_decodeAll hd)
  rw [List.pairwise_cons] at hback
  constructor
  · intro entry hentry
    obtain ⟨other, hmem, -⟩ := mem_emission.mp hentry
    have hle := hfront _ hmem _ List.mem_cons_self
    have hpos := other.length_pos entry.1
    simp only at hle
    omega
  · intro entry hentry
    obtain ⟨other, hmem, -⟩ := mem_emission.mp hentry
    exact hback.1 (entry.1, other) hmem

/-- The offsets in front of a target, where all of them precede all others. -/
theorem length_takeWhile_lt {α : Type} {first second : List (Nat × α)} {target : Nat}
    (hfirst : ∀ entry ∈ first, entry.1 < target) (hsecond : ∀ entry ∈ second, target ≤ entry.1) :
    (((first ++ second).map (·.1)).takeWhile (· < target)).length = first.length := by
  have hall : ∀ offset ∈ first.map (·.1), decide (offset < target) = true := by
    intro offset ho
    obtain ⟨entry, hentry, rfl⟩ := List.mem_map.mp ho
    exact decide_eq_true (hfirst entry hentry)
  rw [List.map_append, List.takeWhile_append_of_pos hall]
  cases second with
  | nil => simp
  | cons entry rest =>
    have hnot : decide (entry.1 < target) = false :=
      decide_eq_false (Nat.not_lt.mpr (hsecond entry List.mem_cons_self))
    rw [List.map_cons, List.takeWhile_cons_of_neg (by rw [hnot]; exact Bool.false_ne_true),
      List.append_nil, List.length_map]

theorem length_takeWhile_le (offsets : List Nat) {first last : Nat} (h : first ≤ last) :
    (offsets.takeWhile (· < first)).length ≤ (offsets.takeWhile (· < last)).length := by
  induction offsets with
  | nil => exact Nat.le_refl _
  | cons head tail ih =>
    by_cases hlt : head < first
    · rw [List.takeWhile_cons_of_pos (by simpa using hlt),
        List.takeWhile_cons_of_pos (by simpa using Nat.lt_of_lt_of_le hlt h)]
      exact Nat.succ_le_succ ih
    · rw [List.takeWhile_cons_of_neg (by simpa using hlt)]
      exact Nat.zero_le _

/-- The positions of an edited body: which offset each of them was emitted for, so that whatever was
emitted for an instruction lies in one piece, and the pieces lie in order. -/
structure Lays (edit : Edit) (original body : List (Nat × Instruction)) (placed : List (Nat × Nat))
    (size : Nat) : Prop where
  start : moved placed size 0 = 0
  piece : ∀ offset instruction, (offset, instruction) ∈ original →
    Laid placed size body (moved placed size offset)
      (((edit.site offset).emitted instruction).map (offset, ·))
      (moved placed size (offset + instruction.length offset))
  emitted : ∀ entry ∈ placed, ∃ instruction, (entry.1, instruction) ∈ original ∧
    (edit.site entry.1).emitted instruction ≠ []
  ascends : ∀ first last, first ≤ last → moved placed size first ≤ moved placed size last

/-- **What is emitted for an instruction lies in one piece**, from the position that its offset moves
to up to the position that the offset behind it moves to. -/
theorem lays_of_stands {edit : Edit} {code : List UInt8} {edited : Code}
    {original : List (Nat × Instruction)} {relocated : List Instruction}
    (hd : decodeAll code = .ok original)
    (hwf : ∀ instruction ∈ relocated, instruction.WellFormed)
    (he : Instruction.encodeFrom 0 relocated = .ok edited.bytes)
    (hstands : List.Forall₂
      (Stands (((edit.emission original).map (·.1)).zip (offsetsFrom 0 relocated)) edited.size)
      (edit.emission original) ((offsetsFrom 0 relocated).zip (relocated.map Instruction.stored))) :
    ∃ body, decodeAll edited.bytes = .ok body ∧ edit.Lays original body
      (((edit.emission original).map (·.1)).zip (offsetsFrom 0 relocated)) edited.size := by
  have hbody := decodeAll_encodeFrom hwf he
  have hstop := getElem?_offsetsFrom_length he
  rw [Nat.zero_add] at hstop
  have hcount : (edit.emission original).length = relocated.length := by
    have := hstands.length_eq
    rw [List.length_zip, length_offsetsFrom, List.length_map] at this
    omega
  generalize hplaced : ((edit.emission original).map (·.1)).zip (offsetsFrom 0 relocated) = placed
    at hstands ⊢
  have hmoved (target : Nat) : (offsetsFrom 0 relocated)[(((edit.emission original).map
      (·.1)).takeWhile (· < target)).length]? = some (moved placed edited.size target) := by
    rw [moved, ← hplaced]
    refine getElem?_firstAtOrBehind ?_ ?_ target
    · rw [length_offsetsFrom, List.length_map, hcount]
    · rw [List.length_map, hcount]
      exact hstop
  have hsplit {first second : List (Nat × Instruction)} (target : Nat)
      (heq : edit.emission original = first ++ second)
      (hfirst : ∀ entry ∈ first, entry.1 < target) (hsecond : ∀ entry ∈ second, target ≤ entry.1) :
      (offsetsFrom 0 relocated)[first.length]? = some (moved placed edited.size target) := by
    rw [← length_takeWhile_lt hfirst hsecond, ← heq]
    exact hmoved target
  have hlaid {first second : List (Nat × Instruction)}
      (heq : edit.emission original = first ++ second) :=
    laid_of_offsets (fun entry => lookup_of_mem (ascending_of_decodeAll hbody))
      (heq ▸ hstands) hstop
  refine ⟨_, hbody, ?_, ?_, ?_, fun first last hle => ?_⟩
  · have hzero := hsplit 0 (List.nil_append _).symm (by simp) (by simp)
    rw [List.length_nil, getElem?_zero_offsetsFrom] at hzero
    exact (Option.some.inj hzero).symm
  · intro offset instruction hmem
    obtain ⟨front, back, rfl⟩ := List.append_of_mem hmem
    obtain ⟨hbefore, hbehind⟩ := edit.emission_around hd
    have hpos := instruction.length_pos offset
    have hpiece : ∀ entry ∈ ((edit.site offset).emitted instruction).map (offset, ·),
        entry.1 = offset := by
      intro entry hentry
      obtain ⟨_, -, rfl⟩ := List.mem_map.mp hentry
      rfl
    have heq : edit.emission (front ++ (offset, instruction) :: back) = edit.emission front ++
        (((edit.site offset).emitted instruction).map (offset, ·) ++ edit.emission back) :=
      emission_append edit front _
    obtain ⟨position, hposition, hlaidFront, -⟩ := hlaid heq
    obtain ⟨stop, hend, hlaidBoth, -⟩ := hlaid (heq.trans (List.append_assoc ..).symm)
    obtain ⟨middle, hlaidFront', hlaidPiece⟩ := Laid.append_iff.mp hlaidBoth
    cases hlaidFront.unique hlaidFront'
    rw [hsplit offset heq hbefore ?_] at hposition
    rw [hsplit (offset + instruction.length offset) (heq.trans (List.append_assoc ..).symm) ?_
      hbehind] at hend
    · cases hposition
      cases hend
      exact hlaidPiece
    · intro entry hentry
      rcases List.mem_append.mp hentry with hentry | hentry
      · have := hbefore entry hentry
        omega
      · have := hpiece entry hentry
        omega
    · intro entry hentry
      rcases List.mem_append.mp hentry with hentry | hentry
      · exact Nat.le_of_eq (hpiece entry hentry).symm
      · have := hbehind entry hentry
        omega
  · intro entry hentry
    rw [← hplaced] at hentry
    obtain ⟨source, hsource, heq⟩ := List.mem_map.mp (List.of_mem_zip hentry).1
    obtain ⟨instruction, hmem, hemitted⟩ := mem_emission.mp hsource
    rw [← heq]
    exact ⟨instruction, hmem, List.ne_nil_of_mem hemitted⟩
  · obtain ⟨hfirst, heqFirst⟩ := List.getElem?_eq_some_iff.mp (hmoved first)
    obtain ⟨hlast, heqLast⟩ := List.getElem?_eq_some_iff.mp (hmoved last)
    rw [← heqFirst, ← heqLast]
    rcases Nat.lt_or_eq_of_le (length_takeWhile_le ((edit.emission original).map (·.1)) hle) with
      hlt | hsame
    · exact List.pairwise_iff_getElem.mp (pairwise_offsetsFrom 0 relocated).1 _ _ hfirst hlast hlt
    · exact Nat.le_of_eq (getElem_congr_idx hsame)

theorem lays_of_apply {edit : Edit} {code edited : Code} {pool : ConstantPool}
    {original : List (Nat × Instruction)} (h : edit.apply code pool = .ok edited)
    (hsize : edited.size < 2 ^ 31) (hd : decodeAll code.bytes = .ok original)
    (hw : ∀ entry ∈ edit.emission original, entry.2.WellFormed) :
    ∃ body placed, decodeAll edited.bytes = .ok body ∧
      edit.Lays original body placed edited.size := by
  obtain ⟨relocated, hwf, he, hstands⟩ := relocated_of_apply h hsize hd hw
  obtain ⟨body, hbody, hlays⟩ := lays_of_stands hd hwf he hstands
  exact ⟨body, _, hbody, hlays⟩

/-- Offsets between which nothing is emitted move to the same position. -/
theorem Lays.moved_eq {edit : Edit} {original body : List (Nat × Instruction)}
    {placed : List (Nat × Nat)} {size first last : Nat} (h : edit.Lays original body placed size)
    (hle : first ≤ last)
    (hempty : ∀ offset instruction, (offset, instruction) ∈ original → first ≤ offset →
      offset < last → (edit.site offset).emitted instruction = []) :
    moved placed size first = moved placed size last := by
  have hsame : ∀ entry ∈ placed,
      decide ((first : Int) ≤ entry.1) = decide ((last : Int) ≤ entry.1) := by
    intro entry hentry
    obtain ⟨instruction, hmem, hne⟩ := h.emitted entry hentry
    have hnot : ¬ (first ≤ entry.1 ∧ entry.1 < last) := fun ⟨hge, hlt⟩ =>
      hne (hempty _ _ hmem hge hlt)
    rw [decide_eq_decide]
    omega
  unfold moved firstAtOrBehind
  rw [List.find?_congr hsame]

/-- Where nothing is emitted from an offset on, the offset moves to the end. -/
theorem Lays.moved_eq_size {edit : Edit} {original body : List (Nat × Instruction)}
    {placed : List (Nat × Nat)} {size first : Nat} (h : edit.Lays original body placed size)
    (hempty : ∀ offset instruction, (offset, instruction) ∈ original → offset < first) :
    moved placed size first = size := by
  have hnone : placed.find? (fun entry => ((first : Nat) : Int) ≤ entry.1) = none := by
    refine List.find?_eq_none.mpr fun entry hentry => ?_
    obtain ⟨instruction, hmem, -⟩ := h.emitted entry hentry
    have := hempty _ _ hmem
    simp only [decide_eq_true_eq]
    omega
  rw [moved, firstAtOrBehind, hnone]
  rfl

theorem Lays.moved_le {edit : Edit} {code : List UInt8} {original body : List (Nat × Instruction)}
    {placed : List (Nat × Nat)} {size : Nat} (h : edit.Lays original body placed size)
    (hd : decodeAll code = .ok original) (offset : Nat) : moved placed size offset ≤ size := by
  calc moved placed size offset
      ≤ moved placed size (max offset code.length) := h.ascends _ _ (Nat.le_max_left ..)
    _ = size := h.moved_eq_size fun o instruction hmem =>
        (lt_of_decodeAll hd _ hmem).trans_le (Nat.le_max_right ..)

/-- The pieces that are emitted for the instructions from an offset on cover the rest of the body. -/
theorem Lays.exists_piece_from {edit : Edit} {original body : List (Nat × Instruction)}
    {placed : List (Nat × Nat)} {size position : Nat} (h : edit.Lays original body placed size)
    (hdisjoint : original.Pairwise fun a b => a.1 + a.2.length a.1 ≤ b.1)
    {front back : List (Nat × Instruction)} {first : Nat} (heq : original = front ++ back)
    (hfront : ∀ entry ∈ front, entry.1 < first) (hback : ∀ entry ∈ back, first ≤ entry.1)
    (hge : moved placed size first ≤ position) (hlt : position < size) :
    ∃ entry ∈ back, moved placed size entry.1 ≤ position ∧
      position < moved placed size (entry.1 + entry.2.length entry.1) := by
  induction back generalizing front first with
  | nil =>
    rw [List.append_nil] at heq
    subst heq
    rw [h.moved_eq_size fun offset instruction => hfront (offset, instruction)] at hge
    exact absurd hlt (Nat.not_lt.mpr hge)
  | cons entry back ih =>
    have hpair := hdisjoint
    rw [heq, List.pairwise_append, List.pairwise_cons] at hpair
    obtain ⟨-, ⟨hbehind, -⟩, hbefore⟩ := hpair
    have hpos := entry.2.length_pos entry.1
    have hstart : moved placed size first = moved placed size entry.1 := by
      refine h.moved_eq (hback entry List.mem_cons_self) fun offset instruction hmem hge hlt => ?_
      rw [heq, List.mem_append, List.mem_cons] at hmem
      rcases hmem with hmem | rfl | hmem
      · exact absurd (hfront _ hmem) (Nat.not_lt.mpr hge)
      · exact absurd hlt (Nat.lt_irrefl _)
      · have := hbehind _ hmem
        simp only at this
        omega
    by_cases hinside : position < moved placed size (entry.1 + entry.2.length entry.1)
    · exact ⟨entry, List.mem_cons_self, hstart ▸ hge, hinside⟩
    · have hearlier : ∀ other ∈ front ++ [entry], other.1 < entry.1 + entry.2.length entry.1 := by
        intro other hother
        rcases List.mem_append.mp hother with hother | hother
        · have := hbefore _ hother _ List.mem_cons_self
          have := other.2.length_pos other.1
          omega
        · obtain rfl := List.mem_singleton.mp hother
          omega
      obtain ⟨later, hlater, hpiece⟩ := ih (heq.trans (List.append_cons ..)) hearlier hbehind
        (Nat.le_of_not_lt hinside)
      exact ⟨later, List.mem_cons_of_mem _ hlater, hpiece⟩

/-- **The pieces cover the edited body**: every position in it lies in one of them. -/
theorem Lays.exists_piece {edit : Edit} {code : List UInt8}
    {original body : List (Nat × Instruction)} {placed : List (Nat × Nat)} {size position : Nat}
    (h : edit.Lays original body placed size) (hd : decodeAll code = .ok original)
    (hlt : position < size) : ∃ offset instruction, (offset, instruction) ∈ original ∧
      moved placed size offset ≤ position ∧
      position < moved placed size (offset + instruction.length offset) := by
  obtain ⟨entry, hmem, hpiece⟩ := h.exists_piece_from (disjoint_of_decodeAll hd)
    (List.nil_append original).symm (by simp) (fun _ _ => Nat.zero_le _)
    (h.start.trans_le (Nat.zero_le position)) hlt
  exact ⟨entry.1, entry.2, hmem, hpiece⟩

end Edit

end JvmTrim
