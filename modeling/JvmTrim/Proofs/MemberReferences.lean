import JvmTrim.Proofs.Keeping
import JvmTrim.Proofs.Retargeting

/-!
# Member references in a constant pool

A member reference is written into a constant pool in six steps, each of which takes the first equal
constant that is there and appends one only if there is none. What was found stays the first one while
the pool grows, so the same steps lead to the same indices a second time, whatever stood in the pool
before and in whatever order.

The second index of a long or a double holds nothing when the constant is appended, and nothing is ever
written to it. It can be given to another constant only if the pool is cut down to a length between
the two indices. No length is of this kind whose constants are still there; but a length of the past
is, if meanwhile the pool was cut down further and grew again in another way.

## Main definitions

* `ConstantPool.Growth`: the ways in which a constant pool grows
* `ConstantPool.Grown`: the constant pools in which no constant was cut in half
* `ConstantPool.Finds`: the constants of a member reference are found
* `ConstantPool.RoundTrips`: a member reference that was written

## Main results

* `ConstantPool.Growth.maintains`: what appending keeps, growing keeps
* `ConstantPool.memberRefIndex_roundTrips`: member references are read as they were written
* `ConstantPool.truncate_between`: a length of the past that cuts a long in half
-/

namespace JvmTrim

/-- The constant that refers to a member by its class, its name and its descriptor. -/
def MemberKind.reference (kind : MemberKind) (owner nameAndType : UInt16) : Constant :=
  match kind with
  | .field => .fieldref owner nameAndType
  | .method => .methodref owner nameAndType
  | .interfaceMethod => .interfaceMethodref owner nameAndType

namespace ConstantPool

variable {pool grown : ConstantPool} {constant : Constant} {member : MemberRef} {index : UInt16}

/-! ## What is found -/

theorem find?_eq_some_iff : pool.find? constant = some index ↔ constant.isShareable = true ∧
    ∃ place, pool.entries.findIdx? (· == some constant) = some place ∧
      UInt16.ofNat place = index := by
  rw [find?]
  split
  · rename_i hshareable
    simp [hshareable, Option.map_eq_some_iff]
  · rename_i hshareable
    simp [hshareable]

/-- What is found stays the first one while the pool grows. -/
theorem Extends.find?_eq (h : pool.Extends grown) (hfind : pool.find? constant = some index) :
    grown.find? constant = some index := by
  obtain ⟨hshareable, place, hplace, hindex⟩ := find?_eq_some_iff.mp hfind
  refine find?_eq_some_iff.mpr ⟨hshareable, place, ?_, hindex⟩
  obtain ⟨appended, happended⟩ := h.exists_appended
  rw [happended, Array.findIdx?_append, hplace]
  rfl

/-- What is appended is found where it was appended. -/
theorem find?_append (hshareable : constant.isShareable = true) (h : pool.find? constant = none) :
    (pool.append constant).find? constant = some (UInt16.ofNat pool.length) := by
  refine find?_eq_some_iff.mpr ⟨hshareable, pool.length, ?_, rfl⟩
  have hnone : pool.entries.findIdx? (· == some constant) = none := by
    rw [find?, if_pos hshareable] at h
    exact Option.map_eq_none_iff.mp h
  rw [append]
  split <;> simp [Array.findIdx?_push, hnone, ConstantPool.length]

/-- What was found or added is found. -/
theorem find?_of_findOrAdd (hshareable : constant.isShareable = true)
    (h : PoolM.Runs (findOrAdd constant) pool index grown) : grown.find? constant = some index := by
  obtain ⟨hfind, rfl⟩ | ⟨hnone, rfl, -, rfl⟩ := Decision.runs_findOrAdd.mp h
  · exact hfind
  · exact find?_append hshareable hnone

theorem extends_of_runs {α : Type} {change : PoolM α} {result : α} (happends : change.Appends)
    (h : PoolM.Runs change pool result grown) : pool.Extends grown := by
  have hextends := (happends pool).1
  rw [h] at hextends
  exact hextends

/-! ## One member reference -/

/-- Whether the constants of a member reference are found, each under the index by which the next one
refers to it; `index` is that of the reference. -/
inductive Finds (pool : ConstantPool) (member : MemberRef) (index : UInt16) : Prop where
  | intro {ownerName owner name descriptor nameAndType : UInt16}
      (hownerName : pool.find? (.utf8 member.owner) = some ownerName)
      (howner : pool.find? (.class ownerName) = some owner)
      (hname : pool.find? (.utf8 member.name) = some name)
      (hdescriptor : pool.find? (.utf8 member.descriptor) = some descriptor)
      (hnameAndType : pool.find? (.nameAndType name descriptor) = some nameAndType)
      (hreference : pool.find? (member.kind.reference owner nameAndType) = some index) :
      Finds pool member index

theorem isShareable_reference (kind : MemberKind) (owner nameAndType : UInt16) :
    (kind.reference owner nameAndType).isShareable = true := by
  cases kind <;> rfl

theorem slots_reference (kind : MemberKind) (owner nameAndType : UInt16) :
    (kind.reference owner nameAndType).slots = 1 := by
  cases kind <;> rfl

/-- Writing a member reference takes six steps. -/
theorem runs_memberRefIndex : PoolM.Runs (memberRefIndex member) pool index grown ↔
    ∃ ownerName pool₁ owner pool₂ name pool₃ descriptor pool₄ nameAndType pool₅,
      PoolM.Runs (findOrAdd (.utf8 member.owner)) pool ownerName pool₁ ∧
      PoolM.Runs (findOrAdd (.class ownerName)) pool₁ owner pool₂ ∧
      PoolM.Runs (findOrAdd (.utf8 member.name)) pool₂ name pool₃ ∧
      PoolM.Runs (findOrAdd (.utf8 member.descriptor)) pool₃ descriptor pool₄ ∧
      PoolM.Runs (findOrAdd (.nameAndType name descriptor)) pool₄ nameAndType pool₅ ∧
      PoolM.Runs (findOrAdd (member.kind.reference owner nameAndType)) pool₅ index grown := by
  unfold memberRefIndex classIndex nameAndTypeIndex utf8Index
  simp only [PoolM.runs_bind]
  constructor
  · rintro ⟨owner, pool₂, ⟨ownerName, pool₁, hownerName, howner⟩, nameAndType, pool₅,
      ⟨name, pool₃, hname, descriptor, pool₄, hdescriptor, hnameAndType⟩, hreference⟩
    exact ⟨ownerName, pool₁, owner, pool₂, name, pool₃, descriptor, pool₄, nameAndType, pool₅,
      hownerName, howner, hname, hdescriptor, hnameAndType, hreference⟩
  · rintro ⟨ownerName, pool₁, owner, pool₂, name, pool₃, descriptor, pool₄, nameAndType, pool₅,
      hownerName, howner, hname, hdescriptor, hnameAndType, hreference⟩
    exact ⟨owner, pool₂, ⟨ownerName, pool₁, hownerName, howner⟩, nameAndType, pool₅,
      ⟨name, pool₃, hname, descriptor, pool₄, hdescriptor, hnameAndType⟩, hreference⟩

theorem finds_of_runs (h : PoolM.Runs (memberRefIndex member) pool index grown) :
    grown.Finds member index := by
  obtain ⟨ownerName, pool₁, owner, pool₂, name, pool₃, descriptor, pool₄, nameAndType, pool₅,
    hownerName, howner, hname, hdescriptor, hnameAndType, hreference⟩ := runs_memberRefIndex.mp h
  have hlast : pool₅.Extends grown := extends_of_runs (PoolM.appends_findOrAdd _) hreference
  have h₄ : pool₄.Extends grown :=
    (extends_of_runs (PoolM.appends_findOrAdd _) hnameAndType).trans hlast
  have h₃ : pool₃.Extends grown :=
    (extends_of_runs (PoolM.appends_findOrAdd _) hdescriptor).trans h₄
  have h₂ : pool₂.Extends grown := (extends_of_runs (PoolM.appends_findOrAdd _) hname).trans h₃
  have h₁ : pool₁.Extends grown := (extends_of_runs (PoolM.appends_findOrAdd _) howner).trans h₂
  exact .intro (h₁.find?_eq (find?_of_findOrAdd rfl hownerName))
    (h₂.find?_eq (find?_of_findOrAdd rfl howner)) (h₃.find?_eq (find?_of_findOrAdd rfl hname))
    (h₄.find?_eq (find?_of_findOrAdd rfl hdescriptor))
    (hlast.find?_eq (find?_of_findOrAdd rfl hnameAndType))
    (find?_of_findOrAdd (isShareable_reference _ _ _) hreference)

/-- What is found is not written again. -/
theorem Finds.runs (h : pool.Finds member index) :
    PoolM.Runs (memberRefIndex member) pool index pool := by
  have hstep {constant : Constant} {index : UInt16} (hfind : pool.find? constant = some index) :
      PoolM.Runs (findOrAdd constant) pool index pool :=
    Decision.runs_findOrAdd.mpr (.inl ⟨hfind, rfl⟩)
  cases h with
  | intro hownerName howner hname hdescriptor hnameAndType hreference =>
    exact runs_memberRefIndex.mpr ⟨_, pool, _, pool, _, pool, _, pool, _, pool, hstep hownerName,
      hstep howner, hstep hname, hstep hdescriptor, hstep hnameAndType, hstep hreference⟩

/-- What is found is read. -/
theorem Finds.memberRef_eq (h : pool.Finds member index) (hlength : pool.length ≤ 65536) :
    pool.memberRef index = .ok member := by
  cases h with
  | @intro _ owner _ _ nameAndType hownerName howner hname hdescriptor hnameAndType hreference =>
    have hclass : pool.className owner = .ok member.owner :=
      className_eq_ok.mpr ⟨_, get_of_find? howner hlength,
        utf8_eq_ok.mpr (get_of_find? hownerName hlength)⟩
    have hnamed : pool.nameAndType nameAndType = .ok (member.name, member.descriptor) :=
      nameAndType_eq_ok.mpr ⟨_, _, get_of_find? hnameAndType hlength,
        utf8_eq_ok.mpr (get_of_find? hname hlength),
        utf8_eq_ok.mpr (get_of_find? hdescriptor hlength)⟩
    have hget := get_of_find? hreference hlength
    obtain ⟨ownerText, nameText, descriptorText, kind⟩ := member
    rw [memberRef, hget]
    cases kind <;>
      simp only [MemberKind.reference, bind, Except.bind, pure, Except.pure, hnamed, hclass]

/-- Six indices are enough to write a member reference. -/
theorem exists_runs_memberRefIndex (member : MemberRef) (hroom : pool.length + 6 ≤ 65535) :
    ∃ index grown, PoolM.Runs (memberRefIndex member) pool index grown := by
  have hstep (pool : ConstantPool) (constant : Constant) (hslots : constant.slots = 1)
      (hroom : pool.length + 1 ≤ 65535) :
      ∃ index pool', PoolM.Runs (findOrAdd constant) pool index pool' ∧
        pool'.length ≤ pool.length + 1 :=
    hslots ▸ exists_runs_findOrAdd constant (hslots ▸ hroom)
  obtain ⟨ownerName, pool₁, hownerName, h₁⟩ := hstep pool (.utf8 member.owner) rfl (by omega)
  obtain ⟨owner, pool₂, howner, h₂⟩ := hstep pool₁ (.class ownerName) rfl (by omega)
  obtain ⟨name, pool₃, hname, h₃⟩ := hstep pool₂ (.utf8 member.name) rfl (by omega)
  obtain ⟨descriptor, pool₄, hdescriptor, h₄⟩ := hstep pool₃ (.utf8 member.descriptor) rfl (by omega)
  obtain ⟨nameAndType, pool₅, hnameAndType, h₅⟩ :=
    hstep pool₄ (.nameAndType name descriptor) rfl (by omega)
  obtain ⟨index, grown, hreference, -⟩ :=
    hstep pool₅ (member.kind.reference owner nameAndType) (slots_reference _ _ _) (by omega)
  exact ⟨index, grown, runs_memberRefIndex.mpr ⟨ownerName, pool₁, owner, pool₂, name, pool₃,
    descriptor, pool₄, nameAndType, pool₅, hownerName, howner, hname, hdescriptor, hnameAndType,
    hreference⟩⟩

/-! ## Constants that take two indices -/

/-- The ways in which a constant pool grows. -/
inductive Growth where
  | add (constant : Constant)
  | findOrAdd (constant : Constant)
  | utf8Index (text : String)
  | classIndex (name : String)
  | nameAndTypeIndex (name descriptor : String)
  | memberRefIndex (member : MemberRef)

/-- The change of the pool, which can fail half-way. -/
def Growth.change : Growth → PoolM UInt16
  | add constant => ConstantPool.add constant
  | findOrAdd constant => ConstantPool.findOrAdd constant
  | utf8Index text => ConstantPool.utf8Index text
  | classIndex name => ConstantPool.classIndex name
  | nameAndTypeIndex name descriptor => ConstantPool.nameAndTypeIndex name descriptor
  | memberRefIndex member => ConstantPool.memberRefIndex member

/-- Whether no constant has its first index below a length and its second one not. -/
def KeepsWhole (pool : ConstantPool) (length : Nat) : Prop :=
  ∀ index constant, pool.entries[index]? = some (some constant) → constant.isWide = true →
    index + 1 ≠ length

/-- The constant pools that growing leads to from the one without constants, and cutting down to lengths
that keep constants whole. -/
inductive Grown : ConstantPool → Prop where
  | empty : Grown .empty
  | grow {pool : ConstantPool} (h : Grown pool) (growth : Growth) :
      Grown (growth.change.apply pool).2
  | truncate {pool : ConstantPool} (h : Grown pool) {length : Nat} (hwhole : pool.KeepsWhole length) :
      Grown (pool.truncate length)

/-- Whether the first slot and the slot behind every constant that takes two are there and hold
nothing. -/
structure Spaced (pool : ConstantPool) : Prop where
  first : pool.entries[0]? = some none
  second : ∀ index constant, pool.entries[index]? = some (some constant) →
    constant.isWide = true → pool.entries[index + 1]? = some none

/-- **What appending a constant keeps, growing keeps.** -/
theorem Growth.maintains {P : ConstantPool → Prop}
    (happend : ∀ pool constant, P pool → P (pool.append constant)) (growth : Growth) :
    growth.change.Maintains P := by
  have hadd (constant : Constant) : (ConstantPool.add constant).Maintains P := by
    refine Change.maintains_ofEffect fun pool h => ?_
    dsimp only
    split
    · exact h
    · exact happend pool constant h
  have hfind (constant : Constant) : (ConstantPool.findOrAdd constant).Maintains P := by
    refine Change.maintains_bind (fun _ h => h) fun pool => ?_
    split
    · exact Change.maintains_pure _
    · exact hadd constant
  have hclass (name : String) : (ConstantPool.classIndex name).Maintains P :=
    Change.maintains_bind (hfind _) fun _ => hfind _
  have hnamed (name descriptor : String) :
      (ConstantPool.nameAndTypeIndex name descriptor).Maintains P :=
    Change.maintains_bind (hfind _) fun _ => Change.maintains_bind (hfind _) fun _ => hfind _
  cases growth with
  | add constant => exact hadd constant
  | findOrAdd constant => exact hfind constant
  | utf8Index text => exact hfind _
  | classIndex name => exact hclass name
  | nameAndTypeIndex name descriptor => exact hnamed name descriptor
  | memberRefIndex member =>
    exact Change.maintains_bind (hclass _) fun _ => Change.maintains_bind (hnamed _ _) fun _ => hfind _

theorem spaced_empty : Spaced .empty where
  first := rfl
  second index constant h := by
    obtain ⟨hlt, hentry⟩ := Array.getElem?_eq_some_iff.mp h
    obtain rfl : index = 0 := Nat.lt_one_iff.mp hlt
    cases hentry

theorem getElem?_append (pool : ConstantPool) (constant : Constant) (index : Nat) :
    (pool.append constant).entries[index]? =
      if index < pool.length then pool.entries[index]?
      else if index = pool.length then some (some constant)
      else if index = pool.length + 1 ∧ constant.isWide = true then some none
      else none := by
  have hold : pool.length ≤ index → pool.entries[index]? = none := Array.getElem?_eq_none
  rw [ConstantPool.append]
  split
  · rename_i hwide
    simp only [Array.getElem?_push, Array.size_push, ConstantPool.length, hwide, and_true] at hold ⊢
    grind
  · rename_i hwide
    simp only [Array.getElem?_push, ConstantPool.length, hwide] at hold ⊢
    grind

theorem getElem?_truncate (pool : ConstantPool) (length index : Nat) :
    (pool.truncate length).entries[index]? =
      if index < max length 1 then pool.entries[index]? else none := by
  have hold : pool.entries.size ≤ index → pool.entries[index]? = none := Array.getElem?_eq_none
  rw [ConstantPool.truncate, Array.take, Array.getElem?_extract]
  grind

theorem Spaced.length_pos (h : pool.Spaced) : 0 < pool.length :=
  (Array.getElem?_eq_some_iff.mp h.first).1

/-- The second index of a constant is below every length that counts the first one. -/
theorem Spaced.second_lt (h : pool.Spaced) {index : Nat} (hget : pool.entries[index]? = some (some constant))
    (hwide : constant.isWide = true) : index + 1 < pool.length :=
  (Array.getElem?_eq_some_iff.mp (h.second index constant hget hwide)).1

/-- A constant that is appended has its second index to itself. -/
theorem Spaced.append (h : pool.Spaced) (constant : Constant) : (pool.append constant).Spaced where
  first := by rw [getElem?_append, if_pos h.length_pos, h.first]
  second index other hget hwide := by
    rw [getElem?_append] at hget ⊢
    split at hget
    · rw [if_pos (h.second_lt hget hwide), h.second index other hget hwide]
    · split at hget
      · rename_i hindex
        cases hget
        rw [if_neg (by omega), if_neg (by omega), if_pos ⟨by rw [hindex], hwide⟩]
      · split at hget <;> cases hget

theorem Spaced.truncate (h : pool.Spaced) {length : Nat} (hwhole : pool.KeepsWhole length) :
    (pool.truncate length).Spaced where
  first := by rw [getElem?_truncate, if_pos (by omega), h.first]
  second index constant hget hwide := by
    rw [getElem?_truncate] at hget ⊢
    split at hget
    · rename_i hindex
      have hbetween : index + 1 ≠ length := hwhole index constant hget hwide
      have hfirst : index ≠ 0 := by
        rintro rfl
        rw [h.first] at hget
        cases hget
      rw [if_pos (by omega), h.second index constant hget hwide]
    · cases hget

theorem Grown.spaced (h : pool.Grown) : pool.Spaced := by
  induction h with
  | empty => exact spaced_empty
  | grow _ growth ih => exact growth.maintains (fun _ _ h => h.append _) _ ih
  | truncate _ hwhole ih => exact ih.truncate hwhole

theorem Grown.built (h : pool.Grown) : pool.Built := by
  induction h with
  | empty => exact .empty
  | grow _ growth ih =>
    cases growth with
    | add constant => exact ih.add constant
    | findOrAdd constant => exact ih.findOrAdd constant
    | utf8Index text => exact ih.utf8Index text
    | classIndex name => exact ih.classIndex name
    | nameAndTypeIndex name descriptor => exact ih.nameAndTypeIndex name descriptor
    | memberRefIndex member => exact ih.memberRefIndex member
  | truncate _ _ ih => exact ih.truncate _

/-- A length up to which nothing but appending has happened since keeps constants whole. -/
theorem Spaced.keepsWhole_length (h : pool.Spaced) (hextends : pool.Extends grown) :
    grown.KeepsWhole pool.length := by
  intro index constant hget hwide heq
  have hlt : index < pool.entries.size := by
    rw [← ConstantPool.length]
    omega
  have hold : pool.entries[index]? = some (some constant) := by
    rw [← hget, hextends.entries index _ (Array.getElem?_eq_getElem hlt),
      Array.getElem?_eq_getElem hlt]
  have := h.second_lt hold hwide
  omega

/-! ## What holds of every constant pool -/

/-- Nothing is ever written to the first slot. -/
theorem Built.first (h : pool.Built) : pool.entries[0]? = some none := by
  refine h.invariant (P := fun pool => pool.entries[0]? = some none) rfl
    (fun old new hextends hold => hextends.entries 0 none hold)
    (fun old new index constant hset hold => ?_) fun old length hold => ?_
  · obtain ⟨found, hfound, hset⟩ := Except.bind_eq_ok.mp hset
    cases hset
    have hindex : index.toNat ≠ 0 := by
      intro hzero
      have hget := get_eq_ok.mp hfound
      rw [hzero, hold] at hget
      cases hget
    rw [Array.getElem?_setIfInBounds_ne hindex, hold]
  · rw [getElem?_truncate, if_pos (by omega), hold]

/-- What holds of a member reference that was written under an index. -/
structure RoundTrips (pool : ConstantPool) (member : MemberRef) (index : UInt16)
    (grown : ConstantPool) : Prop where
  /-- It is read as it was written. -/
  reads : grown.memberRef index = .ok member
  /-- Every index that was in use denotes the same constant. -/
  keeps : ∀ other constant, pool.get other = .ok constant → grown.get other = .ok constant
  /-- Writing it again gives the same index and changes nothing. -/
  again : PoolM.Runs (memberRefIndex member) grown index grown
  /-- Cutting the pool down to the length it had takes back what was appended. -/
  undone : grown.truncate pool.length = pool

theorem roundTrips_of_runs (hpool : pool.Built)
    (h : PoolM.Runs (memberRefIndex member) pool index grown) :
    pool.RoundTrips member index grown := by
  have hextends : pool.Extends grown := extends_of_runs (PoolM.appends_memberRefIndex member) h
  have hfinds : grown.Finds member index := finds_of_runs h
  have hlength : grown.length ≤ 65536 := by
    have := hextends.length
    have := hpool.length_le
    omega
  exact ⟨hfinds.memberRef_eq hlength, fun other _ => stable_get other _ _ _ hextends, hfinds.runs,
    hextends.truncate_eq hpool.length_pos⟩

/-- The index behind that of a constant that takes two denotes nothing. -/
theorem Spaced.get_ne (h : pool.Spaced) (hlength : pool.length ≤ 65535)
    (hget : pool.get index = .ok constant) (hwide : constant.isWide = true) (other : Constant) :
    pool.get (index + 1) ≠ .ok other := by
  rw [get_eq_ok] at hget
  have hlt := h.second_lt hget hwide
  have hnext : (index + 1).toNat = index.toNat + 1 := by
    rw [UInt16.toNat_add, UInt16.toNat_one]
    omega
  rw [Ne, get_eq_ok, hnext, h.second _ _ hget hwide]
  simp

/-- **Member references are read as they were written**, and writing one needs at most six indices, keeps
all that was in the pool and can be taken back. The first slot is never used and the pool stays below
65536. Neither is the index behind that of a long or a double used, as long as the pool is only cut down
to lengths that keep constants whole; these are, among others, the lengths of pools that have only been
appended to since. -/
theorem memberRefIndex_roundTrips (hpool : pool.Built) :
    (∀ member index grown, PoolM.Runs (memberRefIndex member) pool index grown →
      pool.RoundTrips member index grown) ∧
    (pool.length + 6 ≤ 65535 →
      ∀ member, ∃ index grown, PoolM.Runs (memberRefIndex member) pool index grown) ∧
    (∀ constant, pool.get 0 ≠ .ok constant) ∧ pool.length ≤ 65535 ∧
    (pool.Grown →
      (∀ index constant, pool.get index = .ok constant → constant.isWide = true →
        ∀ other, pool.get (index + 1) ≠ .ok other) ∧
      ∀ earlier, Grown earlier → earlier.Extends pool → pool.KeepsWhole earlier.length) := by
  refine ⟨fun member index grown h => roundTrips_of_runs hpool h,
    fun hroom member => exists_runs_memberRefIndex member hroom, fun constant => ?_,
    hpool.length_le, fun hgrown => ⟨fun index constant hget hwide other => ?_,
      fun earlier hearlier hextends => hearlier.spaced.keepsWhole_length hextends⟩⟩
  · rw [Ne, get_eq_ok, UInt16.toNat_zero, hpool.first]
    simp
  · exact hgrown.spaced.get_ne hpool.length_le hget hwide other

/-- A pool with a long and with some constants of a member reference, in no particular order. -/
def scattered : ConstantPool :=
  ((classIndex "a/C").apply ((utf8Index "()V").apply ((add (.long 7)).apply .empty).2).2).2

/-- Two constants of the reference are there, four are appended. -/
theorem memberRefIndex_roundTrips_scattered :
    let member : MemberRef := ⟨"a/C", "m", "()V", .method⟩
    scattered.Built ∧ scattered.Grown ∧ scattered.length = 6 ∧
      ∃ grown, PoolM.Runs (memberRefIndex member) scattered 8 grown ∧ grown.length = 9 ∧
        scattered.RoundTrips member 8 grown ∧
        ∀ other, scattered.get 2 ≠ .ok other := by
  intro member
  have hgrown : scattered.Grown :=
    .grow (.grow (.grow .empty (.add (.long 7))) (.utf8Index "()V")) (.classIndex "a/C")
  have hbuilt : scattered.Built := hgrown.built
  have hlong : scattered.get 1 = .ok (.long 7) :=
    Except.eq_ok_of_toOption (by decide +kernel)
  have hrun : PoolM.Runs (memberRefIndex member) scattered 8
      ((memberRefIndex member).apply scattered).2 :=
    Prod.ext (Except.eq_ok_of_toOption (by decide +kernel)) rfl
  obtain ⟨hround, -, -, -, hspaced⟩ := memberRefIndex_roundTrips hbuilt
  exact ⟨hbuilt, hgrown, by decide +kernel, _, hrun, by decide +kernel, hround member 8 _ hrun,
    (hspaced hgrown).1 1 _ hlong rfl⟩

/-- **A length of the past can cut a long in half.** With its first long the pool has length 3. It is cut
down to the length it had before, and grows again: now a long has the indices 2 and 3. Cutting it down to
length 3 keeps the first of them only, and the next constant gets the second one. -/
theorem truncate_between :
    let start := ConstantPool.empty
    let first := ((add (.long 7)).apply start).2
    let back := first.truncate start.length
    let other := ((add (.long 7)).apply ((add (.integer 1)).apply back).2).2
    let last := ((add (.integer 5)).apply (other.truncate first.length)).2
    start.length = 1 ∧ first.length = 3 ∧
      last.get 2 = .ok (.long 7) ∧ last.get 3 = .ok (.integer 5) := by
  refine ⟨by decide +kernel, by decide +kernel, ?_, ?_⟩
  · exact Except.eq_ok_of_toOption (by decide +kernel)
  · exact Except.eq_ok_of_toOption (by decide +kernel)

end ConstantPool

end JvmTrim
