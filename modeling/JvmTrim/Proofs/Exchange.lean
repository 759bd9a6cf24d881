import JvmTrim.Proofs.Emission
import JvmTrim.Proofs.Relocation
import JvmTrim.Proofs.RoundTrip

/-!
# Exchanging single instructions

An edit may put one instruction in the place of another one, here and there in a body, and leave all
others. The body is laid out anew: jumps may change their width, and displacements lead to the same
instructions as before, counted from the start of the body. If no instruction is exchanged for a
longer one, the body gets at most twice as long.

## Main definitions

* `Instruction.Exchange`: what an exchange of instructions has to respect
* `Code.Exchanged`: a body in which instructions were exchanged
* `Edit.exchangeAt`: exchanges an instruction in an edit

## Main results

* `Code.exchanged_of_apply`: laying out a body with instructions exchanged changes nothing else
* `Edit.emission_foldl_exchangeAt`: what an edit that exchanges instructions emits
-/

namespace JvmTrim

/-! ## Lengths -/

namespace Instruction

variable {instruction : Instruction}

theorem form_stored (instruction : Instruction) : instruction.stored.form = instruction.form.stored := by
  rw [form, form, ← stored_narrowed, ← stored_mapDisplacements]

theorem switchPadding_le (offset : Nat) : switchPadding offset ≤ 3 := by
  unfold switchPadding
  omega

/-- Only a jump changes its length with its width. -/
theorem length_narrowed (offset : Nat) : instruction.narrowed.length offset = instruction.length offset ∨
    ∃ displacement, instruction.operand = .branch displacement := by
  obtain ⟨opcode, operand⟩ := instruction
  by_cases hgoto : opcode = Opcode.gotoW
  · subst hgoto
    cases operand <;> first | exact .inr ⟨_, rfl⟩ | exact .inl rfl
  · by_cases hjsr : opcode = Opcode.jsrW
    · subst hjsr
      cases operand <;> first | exact .inr ⟨_, rfl⟩ | exact .inl rfl
    · have hself : narrowed ⟨opcode, operand⟩ = ⟨opcode, operand⟩ := by simp [narrowed, hgoto, hjsr]
      exact .inl (by rw [hself])

theorem length_of_branch {displacement : Int32} (h : instruction.operand = .branch displacement)
    (offset : Nat) : 3 ≤ instruction.length offset ∧ instruction.length offset ≤ 5 := by
  simp only [length, h]
  split <;> omega

theorem operand_form_eq_branch : (∃ displacement, instruction.form.operand = .branch displacement) ↔
    ∃ displacement, instruction.operand = .branch displacement := by
  have hoperand := instruction.operand_narrowed
  rw [form, mapDisplacements]
  split <;> simp_all

/-- An instruction is nowhere longer than twice what it is in another place. -/
theorem length_le_two_mul (first second : Nat) :
    instruction.length first ≤ 2 * instruction.length second := by
  have hfirst := switchPadding_le first
  obtain ⟨opcode, operand⟩ := instruction
  cases operand with
  | table default low high displacements =>
    simp only [length]
    omega
  | lookup default cases =>
    simp only [length]
    omega
  | _ => exact Nat.le_mul_of_pos_left _ (by omega)

/-- An instruction is nowhere longer than twice what one of its form is in another place. -/
theorem length_le_of_form {a b : Instruction} (h : a.form = b.form) (first second : Nat) :
    a.length first ≤ 2 * b.length second := by
  have hnarrowed : a.narrowed.length first = b.narrowed.length first := by
    rw [← length_mapDisplacements (fun _ => 0), ← length_mapDisplacements (fun _ => 0) b.narrowed]
    exact congrArg (·.length first) h
  have hbranch : (∃ displacement, a.operand = .branch displacement) ↔
      ∃ displacement, b.operand = .branch displacement := by
    rw [← operand_form_eq_branch, h, operand_form_eq_branch]
  by_cases hjump : ∃ displacement, a.operand = .branch displacement
  · obtain ⟨_, ha⟩ := hjump
    obtain ⟨_, hb⟩ := hbranch.mp ⟨_, ha⟩
    have hlong := (length_of_branch ha first).2
    have hshort := (length_of_branch hb second).1
    omega
  · rw [(length_narrowed first).resolve_right hjump,
      (length_narrowed first).resolve_right (mt hbranch.mpr hjump)] at hnarrowed
    rw [hnarrowed]
    exact length_le_two_mul first second

end Instruction

/-! ## The size of a body -/

theorem decoded_of_decodeLoop {bound : Nat} {cursor : Cursor}
    {decoded instructions : List (Nat × Instruction)}
    (h : decodeLoop bound cursor decoded = .ok instructions) :
    ∃ others, instructions = decoded.reverse ++ others ∧ ∀ entry ∈ others, entry.2.Fits ∧
      entry.1 + entry.2.length entry.1 ≤ cursor.position + cursor.rest.length := by
  induction bound generalizing cursor decoded with
  | zero =>
    obtain ⟨position, rest⟩ := cursor
    cases rest with
    | nil =>
      cases h
      exact ⟨[], by simp, by simp⟩
    | cons byte rest => cases h
  | succ bound ih =>
    obtain ⟨position, rest⟩ := cursor
    cases rest with
    | nil =>
      cases h
      exact ⟨[], by simp, by simp⟩
    | cons byte rest =>
      obtain ⟨⟨instruction, next⟩, hdecode, h⟩ := Except.bind_eq_ok.mp h
      obtain ⟨-, hsum⟩ := Instruction.lt_of_decode hdecode
      have hle := Instruction.length_le_of_decode hdecode
      obtain ⟨others, rfl, hall⟩ := ih h
      simp only at hle hsum hall
      refine ⟨(position, instruction) :: others, by simp, List.forall_mem_cons.mpr ⟨?_, ?_⟩⟩
      · refine ⟨Instruction.fits_of_decode hdecode, ?_⟩
        simp only
        omega
      · intro entry hentry
        obtain ⟨hfits, hend⟩ := hall entry hentry
        exact ⟨hfits, hend.trans (Nat.le_of_eq hsum.symm)⟩

/-- What is read from a body fits, and ends inside it. -/
theorem decoded_of_decodeAll {code : List UInt8} {body : List (Nat × Instruction)}
    (h : decodeAll code = .ok body) : ∀ entry ∈ body, entry.2.Fits ∧
      entry.1 + entry.2.length entry.1 ≤ code.length := by
  obtain ⟨others, rfl, hall⟩ := decoded_of_decodeLoop h
  simpa [Cursor.start] using hall

/-- The length of all instructions of a body, padding included. -/
def totalLength (body : List (Nat × Instruction)) : Nat :=
  (body.map fun entry => entry.2.length entry.1).sum

theorem totalLength_le {body : List (Nat × Instruction)} {start stop : Nat} (hstart : start ≤ stop)
    (hpair : body.Pairwise fun a b => a.1 + a.2.length a.1 ≤ b.1)
    (hmem : ∀ entry ∈ body, start ≤ entry.1 ∧ entry.1 + entry.2.length entry.1 ≤ stop) :
    start + totalLength body ≤ stop := by
  induction body generalizing start with
  | nil => exact hstart
  | cons head tail ih =>
    rw [List.pairwise_cons] at hpair
    rw [List.forall_mem_cons] at hmem
    have htail := ih hmem.1.2 hpair.2 fun entry hentry =>
      ⟨hpair.1 entry hentry, (hmem.2 entry hentry).2⟩
    simp only [totalLength, List.map_cons, List.sum_cons] at htail ⊢
    omega

theorem totalLength_le_of_decodeAll {code : List UInt8} {body : List (Nat × Instruction)}
    (h : decodeAll code = .ok body) : totalLength body ≤ code.length := by
  have hle := totalLength_le (Nat.zero_le _) (disjoint_of_decodeAll h) fun entry hentry =>
    ⟨Nat.zero_le _, (decoded_of_decodeAll h entry hentry).2⟩
  rwa [Nat.zero_add] at hle

/-- What an exchange of instructions has to respect: it keeps displacements, gives instructions that
can be written and read back, and none that is longer. -/
structure Instruction.Exchange (change : Instruction → Instruction) : Prop where
  displacements : ∀ instruction, (change instruction).displacements = instruction.displacements
  wellFormed : ∀ instruction, instruction.WellFormed → (change instruction).WellFormed
  stored : ∀ instruction, instruction.Fits → (change instruction).stored = change instruction
  length_le : ∀ instruction offset, (change instruction).length offset ≤ instruction.length offset

open Instruction in
/-- However instructions are laid out anew, and whichever of them are exchanged for shorter ones, they
take at most twice the room. -/
theorem length_le_of_encodeFrom {change : Instruction → Instruction}
    (hshorter : ∀ instruction offset,
      (change instruction).length offset ≤ instruction.length offset)
    {body : List (Nat × Instruction)} {relocated : List Instruction} {offset : Nat}
    {bytes : List UInt8} (hforms : List.Forall₂ (fun source instruction =>
      instruction.form = (change source.2).form) body relocated)
    (h : encodeFrom offset relocated = .ok bytes) : bytes.length ≤ 2 * totalLength body := by
  induction hforms generalizing offset bytes with
  | nil =>
    cases h
    simp
  | @cons source instruction _ _ hform _ ih =>
    obtain ⟨first, hfirst, h⟩ := Except.bind_eq_ok.mp h
    obtain ⟨others, hothers, h⟩ := Except.bind_eq_ok.mp h
    cases h
    have hrest := ih hothers
    have hlength := length_of_encode hfirst
    have hhead := length_le_of_form hform offset source.1
    have hless := hshorter source.2 source.1
    simp only [totalLength, List.map_cons, List.sum_cons, List.length_append] at hrest ⊢
    omega

/-! ## Laying a body out anew -/

namespace Edit

open Instruction

variable {edit : Edit} {code edited : Code} {pool : ConstantPool}
  {original : List (Nat × Instruction)}

/-- What an edited body is made of has the forms that were emitted, whatever its size, and is well
formed if that was. -/
theorem forms_of_apply (h : edit.apply code pool = .ok edited)
    (hd : decodeAll code.bytes = .ok original) :
    ∃ relocated, encodeFrom 0 relocated = .ok edited.bytes ∧
      List.Forall₂ (fun (source : Nat × Instruction) instruction =>
        instruction.form = source.2.form ∧ (source.2.WellFormed → instruction.WellFormed))
        (edit.emission original) relocated := by
  obtain ⟨listing, groups, placement, happlies⟩ := applies_of_apply h
  obtain ⟨settled, relocated, hr⟩ := happlies.relocates
  cases hd.symm.trans (Listing.ofCode_eq_ok happlies.reads).1
  exact ⟨relocated, hr.encodes, hr.forms⟩

/-- A body in which instructions are exchanged for shorter ones stays below twice its size. -/
theorem size_le_of_apply {change : Instruction → Instruction}
    (hshorter : ∀ instruction offset,
      (change instruction).length offset ≤ instruction.length offset)
    {first : List (Nat × Instruction)}
    (h : edit.apply code pool = .ok edited) (hd : decodeAll code.bytes = .ok original)
    (hforms : List.Forall₂ (fun (source result : Nat × Instruction) =>
      result.2.form = (change source.2).form) first (edit.emission original)) :
    edited.size ≤ 2 * totalLength first := by
  obtain ⟨relocated, he, hrelocated⟩ := forms_of_apply h hd
  exact length_le_of_encodeFrom hshorter
    (forall₂_comp (fun _ _ _ hfirst hsecond => hsecond.1.trans hfirst) hforms hrelocated) he

end Edit

/-! ## Where displacements lead -/

/-- Whether a displacement of an instruction at an offset leads to the instruction in some place of a
body, counted from its start. -/
def LeadsTo (body : List (Nat × Instruction)) (offset : Nat) (displacement : Int32) (place : Nat) :
    Prop :=
  ∃ entry, body[place]? = some entry ∧ (offset : Int) + displacement.toInt = entry.1

theorem place_unique {body : List (Nat × Instruction)} (h : body.Pairwise fun a b => a.1 < b.1)
    {first second : Nat} {a b : Nat × Instruction} (ha : body[first]? = some a)
    (hb : body[second]? = some b) (heq : a.1 = b.1) : first = second := by
  obtain ⟨hfirst, rfl⟩ := List.getElem?_eq_some_iff.mp ha
  obtain ⟨hsecond, rfl⟩ := List.getElem?_eq_some_iff.mp hb
  rw [List.pairwise_iff_getElem] at h
  rcases Nat.lt_trichotomy first second with hlt | hsame | hlt
  · exact absurd heq (Nat.ne_of_lt (h first second hfirst hsecond hlt))
  · exact hsame
  · exact absurd heq.symm (Nat.ne_of_lt (h second first hsecond hfirst hlt))

/-- An offset at which an instruction starts moves to where that instruction is placed. -/
theorem firstAtOrBehind_of_getElem? {origins positions : List Nat} {stop place origin position : Nat}
    (hascending : origins.Pairwise (· < ·)) (horigin : origins[place]? = some origin)
    (hposition : positions[place]? = some position) :
    firstAtOrBehind (origins.zip positions) stop origin = position := by
  induction origins generalizing positions place with
  | nil => cases horigin
  | cons head tail ih =>
    rw [List.pairwise_cons] at hascending
    cases positions with
    | nil => cases hposition
    | cons first rest =>
      cases place with
      | zero =>
        cases horigin
        cases hposition
        simp [firstAtOrBehind]
      | succ place =>
        rw [List.getElem?_cons_succ] at horigin hposition
        have hlt : ¬ origin ≤ head :=
          Nat.not_le.mpr (hascending.1 origin (List.mem_of_getElem? horigin))
        have hrest := ih hascending.2 horigin hposition
        simpa [firstAtOrBehind, hlt] using hrest

/-- Where an edit succeeds, every branch that it emits leads to an instruction. -/
theorem Edit.exists_leadsTo_of_apply {edit : Edit} {code edited : Code} {pool : ConstantPool}
    {body : List (Nat × Instruction)} (h : edit.apply code pool = .ok edited)
    (hbody : decodeAll code.bytes = .ok body) : ∀ entry ∈ edit.emission body,
      ∀ displacement ∈ entry.2.displacements, ∃ place, LeadsTo body entry.1 displacement place := by
  obtain ⟨listing, groups, placement, hlisting, hgroups, -⟩ := apply_eq_ok h
  cases hbody.symm.trans (Listing.ofCode_eq_ok hlisting).1
  intro entry hentry displacement hdisplacement
  obtain ⟨target, htarget, hboundary⟩ := (emit_eq_ok hgroups).2 entry hentry _ hdisplacement
  obtain ⟨instruction, hmem⟩ := (Listing.isBoundary_iff hlisting).mp hboundary
  obtain ⟨place, hplace⟩ := List.mem_iff_getElem?.mp hmem
  exact ⟨place, _, hplace, target_eq_ok htarget⟩

/-- Whether the displacements of an instruction of a changed body lead to the same places as those of
the instruction in its place before. -/
def SameTargets (before after : List (Nat × Instruction)) (source result : Nat × Instruction) :
    Prop :=
  List.Forall₂ (fun old new => ∀ place,
      LeadsTo before source.1 old place ↔ LeadsTo after result.1 new place)
    source.2.displacements result.2.displacements

/-- Whether a body is another one in which instructions were exchanged: in every place there is the
same instruction as before, exchanged or not, apart from the width of a jump and from displacements.
As long as 32 bits have room for the distances, those lead to the same places. -/
def Code.Exchanged (change : Instruction → Instruction) (code changed : Code) : Prop :=
  ∀ before, decodeAll code.bytes = .ok before → ∃ after, decodeAll changed.bytes = .ok after ∧
    List.Forall₂ (fun source result => result.2.form = (change source.2).form) before after ∧
    (code.size < 2 ^ 30 → List.Forall₂ (SameTargets before after) before after)

section Apply

open Instruction

variable {change : Instruction → Instruction} {edit : Edit} {code edited : Code}
  {pool : ConstantPool} {body : List (Nat × Instruction)}

theorem Instruction.Exchange.wellFormed_emission (hexchange : Exchange change)
    (hbody : decodeAll code.bytes = .ok body) :
    ∀ entry ∈ body.map fun entry => (entry.1, change entry.2), entry.2.WellFormed := by
  intro entry hentry
  obtain ⟨original, horiginal, rfl⟩ := List.mem_map.mp hentry
  exact hexchange.wellFormed _ (wellFormed_of_decodeAll hbody original horiginal)

/-- The instructions of a body that is laid out with instructions exchanged. -/
theorem Edit.forms_of_exchange (hexchange : Exchange change)
    (h : edit.apply code pool = .ok edited) (hbody : decodeAll code.bytes = .ok body)
    (hemission : edit.emission body = body.map fun entry => (entry.1, change entry.2)) :
    ∃ after, decodeAll edited.bytes = .ok after ∧
      List.Forall₂ (fun source result => result.2.form = (change source.2).form) body after := by
  obtain ⟨relocated, he, hforms⟩ := Edit.forms_of_apply h hbody
  rw [hemission] at hforms
  have hwf : ∀ instruction ∈ relocated, instruction.WellFormed :=
    forall_mem_of_forall₂ (((List.forall₂_and_left _ _).mpr
      ⟨hexchange.wellFormed_emission hbody, hforms⟩).imp fun _ _ hboth => hboth.2.2 hboth.1)
  refine ⟨_, decodeAll_encodeFrom hwf he, ?_⟩
  have hlength : (relocated.map stored).length ≤ (offsetsFrom 0 relocated).length := by
    rw [length_offsetsFrom, List.length_map]
    exact Nat.le_succ _
  have hstored : List.Forall₂ (fun (source : Nat × Instruction) instruction =>
      instruction.form = (change source.2).form) body (relocated.map stored) := by
    rw [List.forall₂_map_left_iff] at hforms
    rw [List.forall₂_map_right_iff]
    refine ((List.forall₂_and_left _ _).mpr ⟨fun entry hentry => hentry, hforms⟩).imp ?_
    rintro source instruction ⟨hmem, hform, -⟩
    rw [form_stored, hform, ← form_stored,
      hexchange.stored _ (decoded_of_decodeAll hbody source hmem).1]
  rw [← List.map_snd_zip hlength, List.forall₂_map_right_iff] at hstored
  exact hstored

/-- The displacements of a body that is laid out with instructions exchanged. -/
theorem Edit.targets_of_exchange (hexchange : Exchange change)
    (h : edit.apply code pool = .ok edited) (hbody : decodeAll code.bytes = .ok body)
    (hemission : edit.emission body = body.map fun entry => (entry.1, change entry.2))
    (hsize : edited.size < 2 ^ 31) {after : List (Nat × Instruction)}
    (hafter : decodeAll edited.bytes = .ok after) :
    List.Forall₂ (SameTargets body after) body after := by
  have hwellFormed := hexchange.wellFormed_emission hbody
  rw [← hemission] at hwellFormed
  obtain ⟨relocated, hwf, he, hstands⟩ := Edit.relocated_of_apply h hsize hbody hwellFormed
  have hchanged := Except.ok.inj ((decodeAll_encodeFrom hwf he).symm.trans hafter)
  have hleads := Edit.exists_leadsTo_of_apply h hbody
  have hoffsets : (edit.emission body).map (·.1) = body.map (·.1) := by
    rw [hemission, List.map_map]
    rfl
  rw [hoffsets, hemission, List.forall₂_map_left_iff, hchanged] at hstands
  rw [hemission, List.forall_mem_map] at hleads
  have hmoved {place : Nat} {source result : Nat × Instruction} (hsource : body[place]? = some source)
      (hresult : after[place]? = some result) :
      firstAtOrBehind ((body.map (·.1)).zip (offsetsFrom 0 relocated)) edited.size source.1 =
        result.1 := by
    have horigin : (body.map (·.1))[place]? = some source.1 := by simp [hsource]
    rw [← hchanged] at hresult
    exact firstAtOrBehind_of_getElem? (List.pairwise_map.mpr (ascending_of_decodeAll hbody)) horigin
      (List.getElem?_zip_eq_some.mp hresult).1
  have hlength := hstands.length_eq
  refine ((List.forall₂_and_left _ _).mpr ⟨fun entry hentry => hentry, hstands⟩).imp ?_
  rintro source result ⟨hmem, hsource⟩
  have htargets := hsource.targets
  have hall := hleads source hmem
  simp only [hexchange.displacements] at htargets hall
  refine ((List.forall₂_and_left _ _).mpr ⟨hall, htargets⟩).imp ?_
  rintro old new ⟨⟨place, target, htarget, hold⟩, hnew⟩ other
  obtain ⟨moved, hmoving⟩ : ∃ moved, after[place]? = some moved := by
    have hlt := (List.getElem?_eq_some_iff.mp htarget).1
    exact ⟨_, List.getElem?_eq_getElem (hlength ▸ hlt)⟩
  simp only [hold, hmoved htarget hmoving] at hnew
  constructor
  · rintro ⟨entry, hentry, heq⟩
    rw [hold, Int.natCast_inj] at heq
    rw [place_unique (ascending_of_decodeAll hbody) hentry htarget heq.symm]
    exact ⟨moved, hmoving, hnew⟩
  · rintro ⟨entry, hentry, heq⟩
    rw [hnew, Int.natCast_inj] at heq
    rw [place_unique (ascending_of_decodeAll hafter) hentry hmoving heq.symm]
    exact ⟨target, htarget, hold⟩

/-- **Laying a body out anew with instructions exchanged** changes nothing else. -/
theorem Code.exchanged_of_apply (hexchange : Exchange change)
    (h : edit.apply code pool = .ok edited) (hbody : decodeAll code.bytes = .ok body)
    (hemission : edit.emission body = body.map fun entry => (entry.1, change entry.2)) :
    Code.Exchanged change code edited := by
  intro before hbefore
  cases hbody.symm.trans hbefore
  obtain ⟨after, hafter, hforms⟩ := Edit.forms_of_exchange hexchange h hbody hemission
  refine ⟨after, hafter, hforms, fun hsize => ?_⟩
  have hsame : List.Forall₂ (fun (source result : Nat × Instruction) =>
      result.2.form = (change source.2).form) body (edit.emission body) := by
    rw [hemission, List.forall₂_map_right_iff]
    exact List.forall₂_same.mpr fun _ _ => rfl
  have hlength := Edit.size_le_of_apply hexchange.length_le h hbody hsame
  have htotal := totalLength_le_of_decodeAll hbody
  refine Edit.targets_of_exchange hexchange h hbody hemission ?_ hafter
  unfold Code.size at hsize hlength ⊢
  omega

end Apply

/-! ## Edits that exchange instructions -/

namespace Edit

variable {change : Instruction → Instruction} {edit : Edit}

/-- Exchanges an instruction, if that makes a difference. -/
def exchangeAt (change : Instruction → Instruction) (edit : Edit) (entry : Nat × Instruction) :
    Edit :=
  if change entry.2 = entry.2 then edit else edit.replace entry.1 [change entry.2]

theorem site_exchangeAt_of_ne {entry : Nat × Instruction} {offset : Nat} (h : offset ≠ entry.1) :
    (exchangeAt change edit entry).site offset = edit.site offset := by
  unfold exchangeAt
  split
  · rfl
  · rw [replace, site_modifySite, if_neg h]

theorem emitted_exchangeAt {entry : Nat × Instruction} (h : edit.site entry.1 = .keep) :
    ((exchangeAt change edit entry).site entry.1).emitted entry.2 = [change entry.2] := by
  unfold exchangeAt
  split
  · rename_i hsame
    rw [h, hsame]
    rfl
  · rw [replace, site_modifySite, if_pos rfl, h]
    rfl

theorem site_foldl_exchangeAt_of_notMem {entries : List (Nat × Instruction)} {offset : Nat}
    (h : ∀ entry ∈ entries, offset ≠ entry.1) :
    (entries.foldl (exchangeAt change) edit).site offset = edit.site offset := by
  induction entries generalizing edit with
  | nil => rfl
  | cons head tail ih =>
    rw [List.foldl_cons, ih fun entry hentry => h entry (List.mem_cons_of_mem _ hentry)]
    exact site_exchangeAt_of_ne (h head List.mem_cons_self)

/-- **What an edit that exchanges instructions emits**: each instruction, exchanged. -/
theorem emission_foldl_exchangeAt {entries : List (Nat × Instruction)}
    (hascending : entries.Pairwise fun a b => a.1 < b.1)
    (h : ∀ entry ∈ entries, edit.site entry.1 = .keep) :
    (entries.foldl (exchangeAt change) edit).emission entries =
      entries.map fun entry => (entry.1, change entry.2) := by
  induction entries generalizing edit with
  | nil => rfl
  | cons head tail ih =>
    rw [List.pairwise_cons] at hascending
    rw [List.forall_mem_cons] at h
    have hhead : ((tail.foldl (exchangeAt change) (exchangeAt change edit head)).site
        head.1).emitted head.2 = [change head.2] := by
      rw [site_foldl_exchangeAt_of_notMem fun entry hentry =>
        Nat.ne_of_lt (hascending.1 entry hentry)]
      exact emitted_exchangeAt h.1
    have htail := @ih (exchangeAt change edit head) hascending.2 fun entry hentry => by
      rw [site_exchangeAt_of_ne (Nat.ne_of_gt (hascending.1 entry hentry))]
      exact h.2 entry hentry
    rw [List.foldl_cons, emission, List.flatMap_cons, hhead, List.map_cons]
    exact congrArg _ htail

theorem foldl_exchangeAt_of_forall {entries : List (Nat × Instruction)}
    (h : ∀ entry ∈ entries, change entry.2 = entry.2) :
    entries.foldl (exchangeAt change) edit = edit := by
  induction entries with
  | nil => rfl
  | cons head tail ih =>
    rw [List.forall_mem_cons] at h
    rw [List.foldl_cons, exchangeAt, if_pos h.1]
    exact ih h.2

/-- An edit that changes nothing exchanges no instruction. -/
theorem change_eq_of_not_isModified {body : List (Nat × Instruction)}
    (hemission : edit.emission body = body.map fun entry => (entry.1, change entry.2))
    (h : edit.isModified = false) : ∀ entry ∈ body, change entry.2 = entry.2 := by
  have hsites : edit.sites = [] := by
    simp only [isModified, Bool.or_eq_false_iff, Bool.not_eq_false', List.isEmpty_iff] at h
    exact h.1
  have hkeep : edit.emission body = body.map fun entry => (entry.1, entry.2) := by
    simp [emission, site, hsites, List.flatMap_singleton']
  rw [hkeep, List.map_inj_left] at hemission
  intro entry hentry
  exact (congrArg Prod.snd (hemission entry hentry)).symm

end Edit

/-- A body in which there is nothing to exchange is one in which all was exchanged. -/
theorem Code.exchanged_of_bytes_eq {change : Instruction → Instruction} {code changed : Code}
    (hbytes : changed.bytes = code.bytes) (h : ∀ body, decodeAll code.bytes = .ok body →
      ∀ entry ∈ body, change entry.2 = entry.2) : Code.Exchanged change code changed := by
  intro body hbody
  refine ⟨body, hbytes ▸ hbody, List.forall₂_same.mpr fun entry hentry => ?_, fun _ => ?_⟩
  · rw [h body hbody entry hentry]
  · exact List.forall₂_same.mpr fun _ _ => List.forall₂_same.mpr fun _ _ _ => Iff.rfl

end JvmTrim
