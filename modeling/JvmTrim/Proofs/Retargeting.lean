import JvmTrim.Proofs.Atomicity
import JvmTrim.Proofs.Descriptors
import JvmTrim.Proofs.Merging
import JvmTrim.Proofs.Pushes

/-!
# Constants in which an interface is replaced

Constants refer to one another by index, and replacing an interface keeps every index: a class, a
descriptor or a method type gets the index of another text, a reference to a method of the interface
becomes a reference to a method of a class, and texts are appended and never changed. Each constant is
looked at once, in the form it had at the start, so what it becomes can be told from the constants
before and the texts afterwards.

## Main definitions

* `ConstantPool.GrowsBy`: a constant pool that grew by texts
* `Replacement.Replaces`: what a constant becomes

## Main results

* `Replacement.changeConstants_eq_ok`: what every constant of a class becomes
-/

namespace JvmTrim

/-! ## Reading constants -/

namespace ConstantPool

variable {pool old new : ConstantPool} {index : UInt16} {text : String}

theorem get_eq_ok {constant : Constant} :
    pool.get index = .ok constant ↔ pool.entries[index.toNat]? = some (some constant) := by
  rw [get, orFail_eq_ok, Option.join_eq_some_iff]

theorem utf8_eq_ok : pool.utf8 index = .ok text ↔ pool.get index = .ok (.utf8 text) := by
  rw [utf8, Except.bind_eq_ok]
  constructor
  · rintro ⟨constant, hget, h⟩
    cases constant <;> cases h
    exact hget
  · exact fun hget => ⟨_, hget, rfl⟩

theorem className_eq_ok : pool.className index = .ok text ↔
    ∃ name, pool.get index = .ok (.class name) ∧ pool.utf8 name = .ok text := by
  rw [className, Except.bind_eq_ok]
  constructor
  · rintro ⟨constant, hget, h⟩
    cases constant
    case «class» name => exact ⟨name, hget, h⟩
    all_goals cases h
  · rintro ⟨name, hget, h⟩
    exact ⟨_, hget, h⟩

theorem nameAndType_eq_ok {name descriptor : String} :
    pool.nameAndType index = .ok (name, descriptor) ↔
      ∃ nameIndex descriptorIndex, pool.get index = .ok (.nameAndType nameIndex descriptorIndex) ∧
        pool.utf8 nameIndex = .ok name ∧ pool.utf8 descriptorIndex = .ok descriptor := by
  rw [nameAndType, Except.bind_eq_ok]
  constructor
  · rintro ⟨constant, hget, h⟩
    cases constant
    case nameAndType nameIndex descriptorIndex =>
      obtain ⟨_, hname, h⟩ := Except.bind_eq_ok.mp h
      obtain ⟨_, hdescriptor, h⟩ := Except.bind_eq_ok.mp h
      cases h
      exact ⟨nameIndex, descriptorIndex, hget, hname, hdescriptor⟩
    all_goals cases h
  · rintro ⟨nameIndex, descriptorIndex, hget, hname, hdescriptor⟩
    refine ⟨_, hget, ?_⟩
    simp only [hname, hdescriptor]
    rfl

/-- A constant that is replaced, and all others. -/
theorem get_of_set {constant : Constant} (h : pool.set index constant = .ok new) :
    new.get index = .ok constant ∧ (∀ other, other ≠ index → new.get other = pool.get other) ∧
      new.length = pool.length := by
  obtain ⟨found, hfound, h⟩ := Except.bind_eq_ok.mp h
  cases h
  have hlt := (Array.getElem?_eq_some_iff.mp (get_eq_ok.mp hfound)).1
  refine ⟨?_, fun other hne => ?_, by simp [length]⟩
  · rw [get_eq_ok, Array.getElem?_setIfInBounds_self_of_lt hlt]
  · have hindex : index.toNat ≠ other.toNat := fun heq => hne (UInt16.toNat_inj.mp heq.symm)
    simp only [get, Array.getElem?_setIfInBounds_ne hindex]

/-- The constants are listed under their indices. -/
theorem mem_toList (hlength : pool.length ≤ 65536) {constant : Constant} :
    (index, constant) ∈ pool.toList ↔ pool.get index = .ok constant := by
  simp only [toList, List.mem_filterMap, Prod.exists, List.mem_zipIdx_iff_getElem?,
    Option.map_eq_some_iff, Prod.mk.injEq, get_eq_ok, Array.getElem?_toList]
  constructor
  · rintro ⟨entry, place, hplace, found, rfl, rfl, rfl⟩
    have hlt : place < 65536 :=
      Nat.lt_of_lt_of_le (Array.getElem?_eq_some_iff.mp hplace).1 hlength
    rwa [UInt16.toNat_ofNat_of_lt' hlt]
  · exact fun h => ⟨_, index.toNat, h, constant, rfl, UInt16.ofNat_toNat, rfl⟩

theorem nodup_toList (hlength : pool.length ≤ 65536) : (pool.toList.map (·.1)).Nodup := by
  have hplaces : pool.entries.toList.zipIdx.Pairwise fun a b => a.2 < b.2 := by
    rw [← List.pairwise_map, List.zipIdx_map_snd]
    exact List.pairwise_lt_range'
  refine List.pairwise_map.mpr (List.pairwise_filterMap.mpr (hplaces.imp_of_mem ?_))
  rintro ⟨entry, place⟩ ⟨entry', place'⟩ hmem hmem' hlt a ha b hb
  obtain ⟨_, -, rfl⟩ := Option.map_eq_some_iff.mp ha
  obtain ⟨_, -, rfl⟩ := Option.map_eq_some_iff.mp hb
  have hbound {entry : Option Constant} {place : Nat}
      (h : (entry, place) ∈ pool.entries.toList.zipIdx) : place < 65536 := by
    rw [List.mem_zipIdx_iff_getElem?, Array.getElem?_toList] at h
    exact Nat.lt_of_lt_of_le (Array.getElem?_eq_some_iff.mp h).1 hlength
  intro heq
  have hplace := congrArg UInt16.toNat heq
  rw [UInt16.toNat_ofNat_of_lt' (hbound hmem), UInt16.toNat_ofNat_of_lt' (hbound hmem')] at hplace
  omega

/-- The pools that can be built leave every index to a constant. -/
theorem Built.length_le (h : pool.Built) : pool.length ≤ 65535 := by
  refine h.invariant (P := fun pool => pool.length ≤ 65535) (by decide)
    (fun old new hextends hold => ?_) (fun old new index constant hset hold => ?_)
    fun old length hold => ?_
  · have := hextends.length
    omega
  · rw [(get_of_set hset).2.2]
    exact hold
  · simp only [ConstantPool.truncate, ConstantPool.length, Array.take, Array.size_extract] at hold ⊢
    omega

end ConstantPool

/-! ## Growing by texts -/

namespace ConstantPool

variable {old new : ConstantPool} {index : UInt16} {text : String}

/-- A constant pool that grew by texts of some sort. -/
structure GrowsBy (P : String → Prop) (old new : ConstantPool) : Prop where
  get : ∀ index constant, old.get index = .ok constant → new.get index = .ok constant
  texts : ∀ index constant, new.get index = .ok constant →
    old.get index = .ok constant ∨ ∃ text, constant = .utf8 text ∧ P text
  length : old.length ≤ 65535 → new.length ≤ 65535

variable {P : String → Prop}

theorem GrowsBy.refl (pool : ConstantPool) : GrowsBy P pool pool :=
  ⟨fun _ _ h => h, fun _ _ h => .inl h, id⟩

theorem GrowsBy.trans {middle : ConstantPool} (h : GrowsBy P old middle)
    (h' : GrowsBy P middle new) : GrowsBy P old new where
  get index constant hget := h'.get index constant (h.get index constant hget)
  texts index constant hget :=
    (h'.texts index constant hget).elim (h.texts index constant) .inr
  length hlength := h'.length (h.length hlength)

theorem GrowsBy.mono {Q : String → Prop} (h : GrowsBy P old new) (hle : ∀ text, P text → Q text) :
    GrowsBy Q old new where
  get := h.get
  texts index constant hget := (h.texts index constant hget).imp_right
    fun ⟨text, htext, hp⟩ => ⟨text, htext, hle text hp⟩
  length := h.length

theorem GrowsBy.utf8 (h : GrowsBy P old new) (htext : old.utf8 index = .ok text) :
    new.utf8 index = .ok text :=
  utf8_eq_ok.mpr (h.get _ _ (utf8_eq_ok.mp htext))

/-- The index of a text that is found or added. -/
theorem growsBy_of_utf8Index (h : PoolM.Runs (utf8Index text) old index new)
    (hlength : old.length ≤ 65535) : GrowsBy (· = text) old new ∧ new.utf8 index = .ok text := by
  have hgrows : GrowsBy (· = text) old new := by
    obtain ⟨-, rfl⟩ | ⟨-, -, hroom, rfl⟩ := Decision.runs_findOrAdd.mp h
    · exact .refl _
    · have hextends := Decision.extends_append hroom
      refine ⟨fun other constant hget => stable_get other _ _ _ hextends hget,
        fun other constant hget => ?_, fun hlength => by have := hextends.length; omega⟩
      rw [get_eq_ok] at hget ⊢
      have hget : (old.entries.push (some (.utf8 text)))[other.toNat]? = some (some constant) := hget
      rw [Array.getElem?_push] at hget
      split at hget
      · cases hget
        exact .inr ⟨text, rfl, rfl⟩
      · exact .inl hget
  exact ⟨hgrows, utf8_eq_ok.mpr (get_of_findOrAdd h ((hgrows.length hlength).trans (by omega)))⟩

end ConstantPool

/-! ## One constant -/

/-- Whether replacing an interface never changes a constant of this sort. -/
def Constant.isFixed : Constant → Bool
  | .class _ | .nameAndType .. | .methodType _ | .interfaceMethodref .. | .methodHandle .. => false
  | _ => true

/-- The index of the descriptor that a constant refers to. -/
def Constant.descriptor? : Constant → Option UInt16
  | .nameAndType _ descriptor | .methodType descriptor => some descriptor
  | _ => none

theorem Constant.descriptor?_of_isFixed {constant : Constant} (h : constant.isFixed = true) :
    constant.descriptor? = none := by
  cases constant <;> first | rfl | cases h

namespace Replacement

variable {replacement : Replacement} {references : List UInt16} {index : UInt16}
  {constant changed : Constant} {old middle new : ConstantPool}

/-- What a constant becomes, where `references` are the references to methods of the interface and
texts are read from the constants afterwards. -/
inductive Replaces (replacement : Replacement) (references : List UInt16) (pool : ConstantPool)
    (index : UInt16) : Constant → Constant → Prop where
  | «class» {name name' : UInt16} {text : String} (hold : pool.utf8 name = .ok text)
      (hnew : pool.utf8 name' = .ok (replacement.className text)) :
      Replaces replacement references pool index (.class name) (.class name')
  | nameAndType {name descriptor descriptor' : UInt16} {text : String}
      (hold : pool.utf8 descriptor = .ok text)
      (hnew : pool.utf8 descriptor' = .ok (replacement.descriptor text)) :
      Replaces replacement references pool index (.nameAndType name descriptor)
        (.nameAndType name descriptor')
  | methodType {descriptor descriptor' : UInt16} {text : String}
      (hold : pool.utf8 descriptor = .ok text)
      (hnew : pool.utf8 descriptor' = .ok (replacement.descriptor text)) :
      Replaces replacement references pool index (.methodType descriptor) (.methodType descriptor')
  | method {owner nameAndType : UInt16} (h : index ∈ references) :
      Replaces replacement references pool index (.interfaceMethodref owner nameAndType)
        (.methodref owner nameAndType)
  | interfaceMethod {owner nameAndType : UInt16} (h : index ∉ references) :
      Replaces replacement references pool index (.interfaceMethodref owner nameAndType)
        (.interfaceMethodref owner nameAndType)
  | methodHandle (kind kind' : UInt8) (reference : UInt16) :
      Replaces replacement references pool index (.methodHandle kind reference)
        (.methodHandle kind' reference)
  | fixed {constant : Constant} (h : constant.isFixed = true) :
      Replaces replacement references pool index constant constant

/-- A text that is needed in the place of a text that a constant refers to. -/
inductive Derives (replacement : Replacement) (pool : ConstantPool) (changed : String) :
    Constant → Prop where
  | «class» {name : UInt16} {text : String} (h : pool.utf8 name = .ok text)
      (hchanged : replacement.className? text = some changed) :
      Derives replacement pool changed (.class name)
  | descriptor {constant : Constant} {descriptor : UInt16} {text : String}
      (hconstant : constant.descriptor? = some descriptor) (h : pool.utf8 descriptor = .ok text)
      (hchanged : replacement.descriptor? text = some changed) :
      Derives replacement pool changed constant

/-- What a constant became stays true while texts stay. -/
theorem Replaces.mono (h : replacement.Replaces references old index constant changed)
    (htexts : ∀ index text, old.utf8 index = .ok text → new.utf8 index = .ok text) :
    replacement.Replaces references new index constant changed := by
  cases h with
  | «class» hold hnew => exact .class (htexts _ _ hold) (htexts _ _ hnew)
  | nameAndType hold hnew => exact .nameAndType (htexts _ _ hold) (htexts _ _ hnew)
  | methodType hold hnew => exact .methodType (htexts _ _ hold) (htexts _ _ hnew)
  | method h => exact .method h
  | interfaceMethod h => exact .interfaceMethod h
  | methodHandle kind kind' reference => exact .methodHandle kind kind' reference
  | fixed h => exact .fixed h

/-- The text in the place of the one at an index. -/
theorem runs_textIndex? {rename : String → Option String} {result : Option UInt16}
    (h : PoolM.Runs (textIndex? rename index) old result new) (hlength : old.length ≤ 65535) :
    ∃ text, old.utf8 index = .ok text ∧
      ConstantPool.GrowsBy (rename text = some ·) old new ∧
      new.utf8 (result.getD index) = .ok ((rename text).getD text) := by
  obtain ⟨pool, _, hget, h⟩ := PoolM.runs_bind.mp h
  cases hget
  obtain ⟨text, _, hread, h⟩ := PoolM.runs_bind.mp h
  obtain ⟨htext, rfl⟩ := PoolM.runs_lift.mp hread
  refine ⟨text, htext, ?_⟩
  cases hrename : rename text with
  | none =>
    simp only [hrename] at h
    obtain ⟨rfl, rfl⟩ := PoolM.runs_pure.mp h
    exact ⟨.refl _, htext⟩
  | some changed =>
    simp only [hrename] at h
    obtain ⟨place, middle, hplace, h⟩ := PoolM.runs_bind.mp h
    obtain ⟨rfl, rfl⟩ := PoolM.runs_pure.mp h
    obtain ⟨hgrows, hread⟩ := ConstantPool.growsBy_of_utf8Index hplace hlength
    exact ⟨hgrows.mono fun _ heq => heq ▸ rfl, hread⟩

/-- A constant that is to refer to the text in the place of the one at an index. -/
theorem runs_map_textIndex? {rename : String → Option String} {make : UInt16 → Constant}
    {result : Option Constant}
    (h : PoolM.Runs (do return (← textIndex? rename index).map make) old result new)
    (hlength : old.length ≤ 65535) :
    ∃ text place, old.utf8 index = .ok text ∧
      ConstantPool.GrowsBy (rename text = some ·) old new ∧
      new.utf8 place = .ok ((rename text).getD text) ∧ result.getD (make index) = make place := by
  obtain ⟨found, middle, hfound, h⟩ := PoolM.runs_bind.mp h
  obtain ⟨rfl, rfl⟩ := PoolM.runs_pure.mp h
  obtain ⟨text, htext, hgrows, hnew⟩ := runs_textIndex? hfound hlength
  exact ⟨text, _, htext, hgrows, hnew, by cases found <;> rfl⟩

/-- The constant in the place of another one. -/
theorem runs_constant? {result : Option Constant}
    (h : PoolM.Runs (replacement.constant? references index constant) old result new)
    (hlength : old.length ≤ 65535) :
    ConstantPool.GrowsBy (replacement.Derives old · constant) old new ∧
      replacement.Replaces references new index constant (result.getD constant) := by
  cases constant
  case «class» name =>
    obtain ⟨text, place, hold, hgrows, hnew, hresult⟩ := runs_map_textIndex? h hlength
    exact ⟨hgrows.mono fun _ hchanged => .class hold hchanged,
      hresult ▸ .class (hgrows.utf8 hold) hnew⟩
  case nameAndType name descriptor =>
    obtain ⟨text, place, hold, hgrows, hnew, hresult⟩ := runs_map_textIndex? h hlength
    exact ⟨hgrows.mono fun _ hchanged => .descriptor rfl hold hchanged,
      hresult ▸ .nameAndType (hgrows.utf8 hold) hnew⟩
  case methodType descriptor =>
    obtain ⟨text, place, hold, hgrows, hnew, hresult⟩ := runs_map_textIndex? h hlength
    exact ⟨hgrows.mono fun _ hchanged => .descriptor rfl hold hchanged,
      hresult ▸ .methodType (hgrows.utf8 hold) hnew⟩
  case interfaceMethodref owner nameAndType =>
    obtain ⟨rfl, rfl⟩ := PoolM.runs_pure.mp h
    refine ⟨.refl _, ?_⟩
    split
    · rename_i hmem
      exact .method (List.contains_iff_mem.mp hmem)
    · rename_i hmem
      exact .interfaceMethod fun hindex => hmem (List.contains_iff_mem.mpr hindex)
  case methodHandle kind reference =>
    obtain ⟨rfl, rfl⟩ := PoolM.runs_pure.mp h
    refine ⟨.refl _, ?_⟩
    split <;> exact .methodHandle _ _ _
  all_goals
    obtain ⟨rfl, rfl⟩ := PoolM.runs_pure.mp h
    exact ⟨.refl _, .fixed rfl⟩

/-! ## All constants -/

/-- Replaces the interface in one constant. -/
def changeConstant (replacement : Replacement) (references : List UInt16)
    (entry : UInt16 × Constant) : PoolM Unit := do
  match ← replacement.constant? references entry.1 entry.2 with
  | some changed =>
    let pool ← getThe ConstantPool
    set (← pool.set entry.1 changed)
  | none => pure ()

/-- What replacing the interface in one constant does to all of them. -/
structure ChangesOne (replacement : Replacement) (references : List UInt16)
    (entry : UInt16 × Constant) (old new : ConstantPool) : Prop where
  self : ∃ changed, new.get entry.1 = .ok changed ∧
    replacement.Replaces references new entry.1 entry.2 changed
  others : ∀ index constant, index ≠ entry.1 → old.get index = .ok constant →
    new.get index = .ok constant
  texts : ∀ index text, old.utf8 index = .ok text → new.utf8 index = .ok text
  added : ∀ index constant, index ≠ entry.1 → new.get index = .ok constant →
    old.get index = .ok constant ∨ ∃ text, constant = .utf8 text ∧ replacement.Derives old text entry.2
  length : new.length ≤ 65535

theorem changesOne_of_runs {entry : UInt16 × Constant}
    (h : PoolM.Runs (replacement.changeConstant references entry) old () new)
    (hentry : old.get entry.1 = .ok entry.2) (hlength : old.length ≤ 65535) :
    replacement.ChangesOne references entry old new := by
  obtain ⟨result, middle, hresult, h⟩ := PoolM.runs_bind.mp h
  obtain ⟨hgrows, hreplaces⟩ := runs_constant? hresult hlength
  cases result with
  | none =>
    obtain ⟨-, rfl⟩ := PoolM.runs_pure.mp h
    refine ⟨⟨entry.2, hgrows.get _ _ hentry, hreplaces⟩, fun index constant _ => hgrows.get _ _,
      fun index text => hgrows.utf8, fun index constant _ => hgrows.texts _ _,
      hgrows.length hlength⟩
  | some changed =>
    obtain ⟨pool, _, hget, h⟩ := PoolM.runs_bind.mp h
    cases hget
    obtain ⟨pool, _, hset, h⟩ := PoolM.runs_bind.mp h
    obtain ⟨hchanged, rfl⟩ := PoolM.runs_lift.mp hset
    cases h
    obtain ⟨hself, hothers, hsame⟩ := ConstantPool.get_of_set hchanged
    have htexts (index : UInt16) (text : String) (htext : middle.utf8 index = .ok text) :
        new.utf8 index = .ok text := by
      rw [ConstantPool.utf8_eq_ok] at htext ⊢
      by_cases hindex : index = entry.1
      · rw [hindex, hgrows.get _ _ hentry, Except.ok.injEq] at htext
        rw [htext] at hreplaces
        cases hreplaces
        rw [hindex]
        exact hself
      · rw [hothers index hindex]
        exact htext
    refine ⟨⟨changed, hself, hreplaces.mono htexts⟩, fun index constant hne hget => ?_,
      fun index text htext => htexts _ _ (hgrows.utf8 htext), fun index constant hne hget => ?_,
      hsame ▸ hgrows.length hlength⟩
    · rw [hothers index hne]
      exact hgrows.get _ _ hget
    · rw [hothers index hne] at hget
      exact hgrows.texts _ _ hget

/-- What replacing the interface in some constants does to all of them. -/
structure ChangesSome (replacement : Replacement) (references : List UInt16)
    (entries : List (UInt16 × Constant)) (old new : ConstantPool) : Prop where
  changed : ∀ entry ∈ entries, ∃ changed, new.get entry.1 = .ok changed ∧
    replacement.Replaces references new entry.1 entry.2 changed
  others : ∀ index constant, index ∉ entries.map (·.1) → old.get index = .ok constant →
    new.get index = .ok constant
  texts : ∀ index text, old.utf8 index = .ok text → new.utf8 index = .ok text
  added : ∀ index constant, index ∉ entries.map (·.1) → new.get index = .ok constant →
    old.get index = .ok constant ∨ ∃ text, constant = .utf8 text
  length : new.length ≤ 65535

/-- The constants are changed one after another, each of them once. -/
theorem changesSome_of_runs {entries : List (UInt16 × Constant)}
    (h : PoolM.Runs (entries.forM (replacement.changeConstant references)) old () new)
    (hentries : ∀ entry ∈ entries, old.get entry.1 = .ok entry.2)
    (hnodup : (entries.map (·.1)).Nodup) (hlength : old.length ≤ 65535) :
    replacement.ChangesSome references entries old new := by
  induction entries generalizing old with
  | nil =>
    obtain ⟨-, rfl⟩ := PoolM.runs_pure.mp h
    exact ⟨by simp, fun _ _ _ hget => hget, fun _ _ htext => htext, fun _ _ _ hget => .inl hget,
      hlength⟩
  | cons head tail ih =>
    obtain ⟨_, middle, hhead, h⟩ := PoolM.runs_bind.mp h
    have hone := changesOne_of_runs hhead (hentries head List.mem_cons_self) hlength
    rw [List.map_cons, List.nodup_cons] at hnodup
    have hrest := ih h (fun entry hentry => by
      refine hone.others _ _ (fun heq => hnodup.1 ?_) (hentries entry (List.mem_cons_of_mem _ hentry))
      exact heq ▸ List.mem_map_of_mem hentry) hnodup.2 hone.length
    refine ⟨fun entry hentry => ?_, fun index constant hindex hget => ?_,
      fun index text htext => hrest.texts _ _ (hone.texts _ _ htext),
      fun index constant hindex hget => ?_, hrest.length⟩
    · rcases List.mem_cons.mp hentry with rfl | hentry
      · obtain ⟨changed, hchanged, hreplaces⟩ := hone.self
        exact ⟨changed, hrest.others _ _ hnodup.1 hchanged, hreplaces.mono hrest.texts⟩
      · exact hrest.changed entry hentry
    · rw [List.map_cons, List.mem_cons, not_or] at hindex
      exact hrest.others _ _ hindex.2 (hone.others _ _ hindex.1 hget)
    · rw [List.map_cons, List.mem_cons, not_or] at hindex
      rcases hrest.added _ _ hindex.2 hget with hmiddle | htext
      · exact (hone.added _ _ hindex.1 hmiddle).imp_right fun ⟨text, htext, _⟩ => ⟨text, htext⟩
      · exact .inr htext

/-- A text at the index of a class name after a step: it was there before, or is derived. -/
theorem ChangesOne.utf8_cases {entry : UInt16 × Constant}
    (h : replacement.ChangesOne references entry old new)
    (hentry : old.get entry.1 = .ok entry.2) {text : String} (htext : new.utf8 index = .ok text) :
    old.utf8 index = .ok text ∨ replacement.Derives old text entry.2 := by
  rw [ConstantPool.utf8_eq_ok] at htext ⊢
  by_cases hindex : index = entry.1
  · obtain ⟨changed, hchanged, hreplaces⟩ := h.self
    rw [hindex, hchanged, Except.ok.injEq] at htext
    generalize hconstant : entry.2 = constant at hreplaces hentry
    subst htext
    cases hreplaces
    exact .inl (hindex ▸ hentry)
  · refine (h.added _ _ hindex htext).imp_right ?_
    rintro ⟨found, hfound, hderives⟩
    cases hfound
    exact hderives

/-- What all class names have in common before, they have in common afterwards, if replacing the
interface keeps it. A class constant may refer to a text that is only appended on the way. -/
theorem className_of_runs {entries : List (UInt16 × Constant)} {Good : String → Prop}
    (h : PoolM.Runs (entries.forM (replacement.changeConstant references)) old () new)
    (hentries : ∀ entry ∈ entries, old.get entry.1 = .ok entry.2)
    (hnodup : (entries.map (·.1)).Nodup) (hlength : old.length ≤ 65535)
    (hclosed : ∀ text, Good text → Good (replacement.className text))
    (hnames : ∀ entry ∈ entries, ∀ name text, entry.2 = .class name →
      old.utf8 name = .ok text → Good text)
    (hdescriptors : ∀ entry ∈ entries, ∀ descriptor, entry.2.descriptor? = some descriptor →
      ∃ text, old.utf8 descriptor = .ok text ∧
        ∀ changed, replacement.descriptor? text = some changed → Good changed) :
    ∀ entry ∈ entries, ∀ name, entry.2 = .class name →
      ∃ text, new.utf8 name = .ok text ∧ Good text := by
  induction entries generalizing old with
  | nil => simp
  | cons head tail ih =>
    obtain ⟨_, middle, hhead, htail⟩ := PoolM.runs_bind.mp h
    have hself := hentries head List.mem_cons_self
    have hone := changesOne_of_runs hhead hself hlength
    rw [List.map_cons, List.nodup_cons] at hnodup
    have hentries' : ∀ entry ∈ tail, middle.get entry.1 = .ok entry.2 := by
      intro entry hentry
      refine hone.others _ _ (fun heq => hnodup.1 ?_) (hentries entry (List.mem_cons_of_mem _ hentry))
      exact heq ▸ List.mem_map_of_mem hentry
    have hderived : ∀ text, replacement.Derives old text head.2 → Good text := by
      intro text hderives
      generalize hconstant : head.2 = constant at hderives
      cases hderives with
      | «class» htext hchanged =>
        have hgood := hclosed _ (hnames head List.mem_cons_self _ _ hconstant htext)
        rwa [className, hchanged] at hgood
      | descriptor hplace htext hchanged =>
        obtain ⟨found, hfound, hgood⟩ :=
          hdescriptors head List.mem_cons_self _ (hconstant ▸ hplace)
        cases htext.symm.trans hfound
        exact hgood text hchanged
    have hnames' : ∀ entry ∈ head :: tail, ∀ name text, entry.2 = .class name →
        middle.utf8 name = .ok text → Good text := by
      intro entry hentry name text hname htext
      exact (hone.utf8_cases hself htext).elim (hnames entry hentry name text hname) (hderived text)
    intro entry hentry name hname
    rcases List.mem_cons.mp hentry with rfl | hentry
    · obtain ⟨changed, hchanged, hreplaces⟩ := hone.self
      rw [hname] at hreplaces
      cases hreplaces with
      | «class» hold hnew =>
        have hrest := changesSome_of_runs htail hentries' hnodup.2 hone.length
        exact ⟨_, hrest.texts _ _ hold, hnames' entry List.mem_cons_self name _ hname hold⟩
      | fixed hfixed => cases hfixed
    · exact ih htail hentries' hnodup.2 hone.length
        (fun entry hentry => hnames' entry (List.mem_cons_of_mem _ hentry)) (fun entry hentry d hd => by
          obtain ⟨text, htext, hgood⟩ := hdescriptors entry (List.mem_cons_of_mem _ hentry) d hd
          exact ⟨text, hone.texts _ _ htext, hgood⟩) entry hentry name hname

end Replacement

/-! ## The references to methods of the interface -/

/-- Whether the constant at an index is a reference to a method of one of some interfaces. -/
def ConstantPool.callsThrough (pool : ConstantPool) (names : List String) (index : UInt16) : Bool :=
  match pool.get index with
  | .ok (.interfaceMethodref owner _) => (pool.className owner).toOption.any names.contains
  | _ => false

theorem ConstantPool.callsThrough_iff {pool : ConstantPool} {names : List String} {index : UInt16} :
    pool.callsThrough names index = true ↔ ∃ owner nameAndType name,
      pool.get index = .ok (.interfaceMethodref owner nameAndType) ∧
      pool.className owner = .ok name ∧ name ∈ names := by
  unfold callsThrough
  constructor
  · intro h
    split at h
    · rename_i owner nameAndType hget
      generalize hname : pool.className owner = result at h
      cases result with
      | error failure => cases h
      | ok name =>
        exact ⟨owner, nameAndType, name, hget, hname, by simpa [Except.toOption] using h⟩
    · cases h
  · rintro ⟨owner, nameAndType, name, hget, hname, hmem⟩
    simpa [hget, hname, Except.toOption] using hmem

namespace Replacement

variable {replacement : Replacement} {references : List UInt16} {before after : ConstantPool}

/-- What looking at one more constant finds. -/
def noteReference (replacement : Replacement) (pool : ConstantPool) (found : List UInt16)
    (entry : UInt16 × Constant) : Except Failure (List UInt16) :=
  match entry.2 with
  | .interfaceMethodref owner _ => do
    return if (← pool.className owner) = replacement.source then entry.1 :: found else found
  | _ => return found

theorem mem_of_noteReference {found next : List UInt16} {entry : UInt16 × Constant}
    (h : replacement.noteReference before found entry = .ok next) (index : UInt16) :
    index ∈ next ↔ index ∈ found ∨ index = entry.1 ∧ ∃ owner nameAndType,
      entry.2 = .interfaceMethodref owner nameAndType ∧
        before.className owner = .ok replacement.source := by
  unfold noteReference at h
  split at h
  · rename_i owner nameAndType hentry
    obtain ⟨name, hname, h⟩ := Except.bind_eq_ok.mp h
    cases h
    by_cases hsource : name = replacement.source
    · simp [hentry, hname, hsource, or_comm]
    · simp [hentry, hname, hsource]
  · rename_i hother
    cases h
    refine ⟨.inl, ?_⟩
    rintro (hfound | ⟨-, owner, nameAndType, heq, -⟩)
    · exact hfound
    · exact (hother owner nameAndType heq).elim

/-- The references to methods of the interface are all found. -/
theorem mem_methodReferences (h : replacement.methodReferences before = .ok references)
    (hlength : before.length ≤ 65535) (index : UInt16) :
    index ∈ references ↔ before.callsThrough [replacement.source] index = true := by
  have hfold (entries : List (UInt16 × Constant)) (found : List UInt16)
      (h : entries.foldlM (replacement.noteReference before) found = .ok references) :
      index ∈ references ↔ index ∈ found ∨ ∃ owner nameAndType,
        (index, .interfaceMethodref owner nameAndType) ∈ entries ∧
          before.className owner = .ok replacement.source := by
    induction entries generalizing found with
    | nil =>
      cases h
      simp
    | cons head tail ih =>
      obtain ⟨place, constant⟩ := head
      rw [List.foldlM_cons, Except.bind_eq_ok] at h
      obtain ⟨next, hnext, h⟩ := h
      have hstep := mem_of_noteReference hnext index
      rw [ih next h, hstep, or_assoc]
      refine or_congr_right ⟨?_, ?_⟩
      · rintro (⟨rfl, owner, nameAndType, heq, hname⟩ | ⟨owner, nameAndType, hmem, hname⟩)
        · exact ⟨owner, nameAndType, heq ▸ List.mem_cons_self, hname⟩
        · exact ⟨owner, nameAndType, List.mem_cons_of_mem _ hmem, hname⟩
      · rintro ⟨owner, nameAndType, hmem, hname⟩
        rcases List.mem_cons.mp hmem with heq | hmem
        · cases heq
          exact .inl ⟨rfl, owner, nameAndType, rfl, hname⟩
        · exact .inr ⟨owner, nameAndType, hmem, hname⟩
  rw [hfold before.toList [] h, ConstantPool.callsThrough_iff]
  simp [ConstantPool.mem_toList (show before.length ≤ 65536 by omega)]

/-- Looking for them reads the class that every reference to a method of an interface names. -/
theorem exists_className_of_methodReferences
    (h : replacement.methodReferences before = .ok references) {index owner nameAndType : UInt16}
    (hmem : (index, .interfaceMethodref owner nameAndType) ∈ before.toList) :
    ∃ name, before.className owner = .ok name := by
  refine (foldlM_along (fun _ _ => True)
    (fun (entry : UInt16 × Constant) _ => ∀ owner nameAndType,
      entry.2 = .interfaceMethodref owner nameAndType → ∃ name, before.className owner = .ok name)
    (fun _ => trivial) (fun _ _ => trivial) (fun h _ => h)
    (fun found entry next _ hstep => ⟨trivial, ?_⟩) h).2 _ hmem owner nameAndType rfl
  rintro owner nameAndType heq
  obtain ⟨place, constant⟩ := entry
  cases heq
  obtain ⟨name, hname, -⟩ := Except.bind_eq_ok.mp hstep
  exact ⟨name, hname⟩

/-! ## The constants of a class -/

/-- What becomes of the constants of a class when an interface is replaced in them. -/
structure ChangesConstants (replacement : Replacement) (references : List UInt16)
    (before after : ConstantPool) : Prop where
  /-- The references to methods of the interface. -/
  calls : ∀ index, index ∈ references ↔
    before.callsThrough [replacement.source] index = true
  /-- References to methods of interfaces name a class. -/
  owners : ∀ index owner nameAndType, before.get index = .ok (.interfaceMethodref owner nameAndType) →
    ∃ name, before.className owner = .ok name
  /-- Every constant is replaced in its place. -/
  changed : ∀ index constant, before.get index = .ok constant → ∃ changed,
    after.get index = .ok changed ∧ replacement.Replaces references after index constant changed
  /-- Only texts are appended. -/
  added : ∀ index constant, after.get index = .ok constant →
    (∃ original, before.get index = .ok original) ∨ ∃ text, constant = .utf8 text
  /-- What class names and descriptors have in common, the names that classes refer to do. -/
  names : ∀ Good : String → Prop, (∀ text, Good text → Good (replacement.className text)) →
    (∀ index name text, before.get index = .ok (.class name) → before.utf8 name = .ok text →
      Good text) →
    (∀ index constant descriptor, before.get index = .ok constant →
      constant.descriptor? = some descriptor →
      ∃ text, before.utf8 descriptor = .ok text ∧
        ∀ changed, replacement.descriptor? text = some changed → Good changed) →
    ∀ index name, before.get index = .ok (.class name) →
      ∃ text, after.utf8 name = .ok text ∧ Good text
  length : after.length ≤ 65535

/-- **What replacing an interface does to the constants of a class.** -/
theorem changeConstants_eq_ok
    (h : replacement.changeConstants.apply before = (.ok references, after))
    (hlength : before.length ≤ 65535) :
    replacement.ChangesConstants references before after := by
  have hruns : PoolM.Runs (do
      let pool ← getThe ConstantPool
      let references ← replacement.methodReferences pool
      pool.toList.forM (replacement.changeConstant references)
      return references) before references after := h
  obtain ⟨_, _, hget, hruns⟩ := PoolM.runs_bind.mp hruns
  cases hget
  obtain ⟨_, _, hreferences, hruns⟩ := PoolM.runs_bind.mp hruns
  obtain ⟨hfound, rfl⟩ := PoolM.runs_lift.mp hreferences
  obtain ⟨_, _, hloop, hruns⟩ := PoolM.runs_bind.mp hruns
  obtain ⟨rfl, rfl⟩ := PoolM.runs_pure.mp hruns
  have hwide : before.length ≤ 65536 := hlength.trans (by omega)
  have hentries : ∀ entry ∈ before.toList, before.get entry.1 = .ok entry.2 :=
    fun entry hentry => (ConstantPool.mem_toList hwide).mp hentry
  have hnodup := ConstantPool.nodup_toList hwide
  have hall := changesSome_of_runs hloop hentries hnodup hlength
  refine ⟨mem_methodReferences hfound hlength, fun index owner nameAndType hget => ?_,
    fun index constant hget => ?_, fun index constant hget => ?_,
    fun Good hclosed hnames hdescriptors index name hget => ?_, hall.length⟩
  · exact exists_className_of_methodReferences hfound ((ConstantPool.mem_toList hwide).mpr hget)
  · exact hall.changed (index, constant) ((ConstantPool.mem_toList hwide).mpr hget)
  · by_cases hindex : index ∈ before.toList.map (·.1)
    · obtain ⟨entry, hentry, rfl⟩ := List.mem_map.mp hindex
      exact .inl ⟨entry.2, hentries entry hentry⟩
    · exact (hall.added index constant hindex hget).imp_left fun hold => ⟨constant, hold⟩
  · exact className_of_runs hloop hentries hnodup hlength hclosed
      (fun entry hentry name text hname => hnames entry.1 name text (hname ▸ hentries entry hentry))
      (fun entry hentry descriptor => hdescriptors entry.1 entry.2 descriptor (hentries entry hentry))
      (index, .class name) ((ConstantPool.mem_toList hwide).mpr hget) name rfl

namespace ChangesConstants

/-- What became of the constants stays true while texts are appended. -/
theorem grow {P : String → Prop} {grown : ConstantPool}
    (h : replacement.ChangesConstants references before after)
    (hgrows : ConstantPool.GrowsBy P after grown) :
    replacement.ChangesConstants references before grown where
  calls := h.calls
  owners := h.owners
  changed index constant hget := by
    obtain ⟨changed, hchanged, hreplaces⟩ := h.changed index constant hget
    exact ⟨changed, hgrows.get _ _ hchanged, hreplaces.mono fun _ _ => hgrows.utf8⟩
  added index constant hget := by
    rcases hgrows.texts index constant hget with hold | ⟨text, htext, -⟩
    · exact h.added index constant hold
    · exact .inr ⟨text, htext⟩
  names Good hclosed hnames hdescriptors index name hget := by
    obtain ⟨text, htext, hgood⟩ := h.names Good hclosed hnames hdescriptors index name hget
    exact ⟨text, hgrows.utf8 htext, hgood⟩
  length := hgrows.length h.length

variable (h : replacement.ChangesConstants references before after)

include h

theorem utf8 {index : UInt16} {text : String} (htext : before.utf8 index = .ok text) :
    after.utf8 index = .ok text := by
  rw [ConstantPool.utf8_eq_ok] at htext ⊢
  obtain ⟨changed, hchanged, hreplaces⟩ := h.changed _ _ htext
  cases hreplaces
  exact hchanged

theorem className {index : UInt16} {name : String} (hname : before.className index = .ok name) :
    after.className index = .ok (replacement.className name) := by
  obtain ⟨place, hget, htext⟩ := ConstantPool.className_eq_ok.mp hname
  obtain ⟨changed, hchanged, hreplaces⟩ := h.changed _ _ hget
  cases hreplaces with
  | «class» hold hnew =>
    cases hold.symm.trans (h.utf8 htext)
    exact ConstantPool.className_eq_ok.mpr ⟨_, hchanged, hnew⟩
  | fixed hfixed => cases hfixed

theorem nameAndType {index : UInt16} {name descriptor : String}
    (hread : before.nameAndType index = .ok (name, descriptor)) :
    after.nameAndType index = .ok (name, replacement.descriptor descriptor) := by
  obtain ⟨namePlace, place, hget, hname, hdescriptor⟩ := ConstantPool.nameAndType_eq_ok.mp hread
  obtain ⟨changed, hchanged, hreplaces⟩ := h.changed _ _ hget
  cases hreplaces with
  | nameAndType hold hnew =>
    cases hold.symm.trans (h.utf8 hdescriptor)
    exact ConstantPool.nameAndType_eq_ok.mpr ⟨_, _, hchanged, h.utf8 hname, hnew⟩
  | fixed hfixed => cases hfixed

/-- A reference to a method of the interface becomes one to a method of the class. -/
theorem get_of_callsThrough {index owner nameAndType : UInt16}
    (hget : before.get index = .ok (.interfaceMethodref owner nameAndType))
    (hcalls : before.callsThrough [replacement.source] index = true) :
    after.get index = .ok (.methodref owner nameAndType) := by
  obtain ⟨changed, hchanged, hreplaces⟩ := h.changed _ _ hget
  cases hreplaces with
  | method _ => exact hchanged
  | interfaceMethod hnot => exact absurd ((h.calls index).mpr hcalls) hnot
  | fixed hfixed => cases hfixed

/-- Other references to methods of interfaces stay. -/
theorem get_of_not_callsThrough {index owner nameAndType : UInt16}
    (hget : before.get index = .ok (.interfaceMethodref owner nameAndType))
    (hcalls : before.callsThrough [replacement.source] index = false) :
    after.get index = .ok (.interfaceMethodref owner nameAndType) := by
  obtain ⟨changed, hchanged, hreplaces⟩ := h.changed _ _ hget
  cases hreplaces with
  | method hmem =>
    rw [(h.calls index).mp hmem] at hcalls
    cases hcalls
  | interfaceMethod _ => exact hchanged
  | fixed hfixed => cases hfixed

theorem get_methodref {index owner nameAndType : UInt16}
    (hget : before.get index = .ok (.methodref owner nameAndType)) :
    after.get index = .ok (.methodref owner nameAndType) := by
  obtain ⟨changed, hchanged, hreplaces⟩ := h.changed _ _ hget
  cases hreplaces
  exact hchanged

/-- References to methods of other interfaces stay what they are. -/
theorem callsThrough_eq (htarget : IsClassName replacement.target) {names : List String}
    (hnames : ∀ name ∈ names, IsClassName name ∧ name ≠ replacement.source ∧
      name ≠ replacement.target) (index : UInt16) :
    after.callsThrough names index = before.callsThrough names index := by
  rw [Bool.eq_iff_iff, ConstantPool.callsThrough_iff, ConstantPool.callsThrough_iff]
  constructor
  · rintro ⟨owner, nameAndType, name, hget, hname, hmem⟩
    obtain ⟨hwritable, -, hne⟩ := hnames name hmem
    obtain ⟨original, horiginal⟩ | ⟨text, htext⟩ := h.added _ _ hget
    · obtain ⟨changed, hchanged, hreplaces⟩ := h.changed _ _ horiginal
      cases hchanged.symm.trans hget
      have hsame : original = .interfaceMethodref owner nameAndType := by
        cases hreplaces <;> rfl
      obtain ⟨old, hold⟩ := h.owners _ _ _ (hsame ▸ horiginal)
      have hclass := (h.className hold).symm.trans hname
      rw [Except.ok.injEq] at hclass
      obtain rfl := eq_of_className_eq htarget hwritable hne hclass
      exact ⟨owner, nameAndType, old, hsame ▸ horiginal, hold, hmem⟩
    · cases htext
  · rintro ⟨owner, nameAndType, name, hget, hname, hmem⟩
    obtain ⟨hwritable, hne, -⟩ := hnames name hmem
    have hclass := h.className hname
    rw [className_of_ne hwritable hne] at hclass
    refine ⟨owner, nameAndType, name, h.get_of_not_callsThrough hget ?_, hclass, hmem⟩
    rw [← Bool.not_eq_true, ConstantPool.callsThrough_iff]
    rintro ⟨owner', nameAndType', name', hget', hname', hmem'⟩
    cases hget.symm.trans hget'
    cases hname.symm.trans hname'
    exact hne (List.mem_singleton.mp hmem')

end ChangesConstants

end Replacement

end JvmTrim
