import JvmTrim.Failure
import Mathlib.Data.List.Forall2

/-!
# Computations that can fail

What a successful computation tells about its parts: a sequence succeeded because every step did,
and a fold over a list keeps what every one of its steps keeps.

## Main results

* `Except.bind_eq_ok`: a successful sequence of two computations
* `forall₂_of_mapM`, `exists_mapM_iff`: a successful computation for every member of a list
* `foldlM_invariant`: what every step of a fold keeps
-/

namespace JvmTrim

variable {ε α β σ : Type}

theorem Except.bind_eq_ok {x : Except ε α} {f : α → Except ε β} {b : β} :
    x >>= f = .ok b ↔ ∃ a, x = .ok a ∧ f a = .ok b := by
  cases x with
  | error e => simp [bind, Except.bind]
  | ok a => simp [bind, Except.bind]

theorem Except.exists_ok {x : Except ε α} (h : x.isOk = true) : ∃ a, x = .ok a := by
  cases x with
  | error e => cases h
  | ok a => exact ⟨a, rfl⟩

theorem Except.exists_error_iff {x : Except ε α} :
    (∃ e, x = .error e) ↔ ¬∃ a, x = .ok a := by
  cases x <;> simp

theorem Except.exists_ok_of_any {x : Except ε α} {p : α → Bool} (h : x.toOption.any p = true) :
    ∃ a, x = .ok a ∧ p a = true := by
  cases x with
  | error e => cases h
  | ok a => exact ⟨a, rfl, h⟩

theorem Except.exists_ok_some_of_any {σ : Type} {x : Except ε (Option α) × σ} {p : α → σ → Bool}
    (h : x.1.toOption.join.any (p · x.2) = true) : ∃ a s, x = (.ok (some a), s) ∧ p a s = true := by
  obtain ⟨e | _ | a, s⟩ := x
  · cases h
  · cases h
  · exact ⟨a, s, rfl, h⟩

theorem Except.eq_ok_of_toOption {x : Except ε α} {a : α} (h : x.toOption = some a) : x = .ok a := by
  cases x with
  | error e => cases h
  | ok b =>
    cases h
    rfl

theorem Except.map_eq_ok {x : Except ε α} {f : α → β} {b : β} :
    f <$> x = .ok b ↔ ∃ a, x = .ok a ∧ f a = b := by
  cases x with
  | error e => simp [Functor.map, Except.map]
  | ok a => simp [Functor.map, Except.map]

theorem orFail_eq_ok {failure : Failure} {value : Option α} {a : α} :
    orFail failure value = .ok a ↔ value = some a := by
  cases value <;> simp [orFail]

theorem orDefect_eq_ok {cause : Defect} {value : Option α} {a : α} :
    orDefect cause value = .ok a ↔ value = some a := by
  cases value <;> simp [orDefect, orFail]

theorem forall₂_of_mapM {f : α → Except ε β} {list : List α} {results : List β}
    (h : list.mapM f = .ok results) : List.Forall₂ (fun a b => f a = .ok b) list results := by
  induction list generalizing results with
  | nil =>
    cases h
    exact .nil
  | cons head tail ih =>
    rw [List.mapM_cons, Except.bind_eq_ok] at h
    obtain ⟨b, hb, h⟩ := h
    obtain ⟨bs, hbs, h⟩ := Except.bind_eq_ok.mp h
    cases h
    exact .cons hb (ih hbs)

/-- A computation for every member of a list succeeds if and only if every single one does. -/
theorem exists_mapM_iff {f : α → Except ε β} {list : List α} :
    (∃ results, list.mapM f = .ok results) ↔ ∀ a ∈ list, ∃ b, f a = .ok b := by
  induction list with
  | nil => exact ⟨fun _ a ha => absurd ha List.not_mem_nil, fun _ => ⟨[], rfl⟩⟩
  | cons head tail ih =>
    rw [List.forall_mem_cons, ← ih]
    constructor
    · rintro ⟨results, h⟩
      rw [List.mapM_cons, Except.bind_eq_ok] at h
      obtain ⟨b, hb, h⟩ := h
      obtain ⟨bs, hbs, -⟩ := Except.bind_eq_ok.mp h
      exact ⟨⟨b, hb⟩, bs, hbs⟩
    · rintro ⟨⟨b, hb⟩, bs, hbs⟩
      refine ⟨b :: bs, ?_⟩
      rw [List.mapM_cons, hb, hbs]
      rfl

/-- Members and results of a computation for every member of a list. -/
theorem mem_of_mapM {f : α → Except ε β} {list : List α} {results : List β}
    (h : list.mapM f = .ok results) :
    (∀ a ∈ list, ∃ b ∈ results, f a = .ok b) ∧ ∀ b ∈ results, ∃ a ∈ list, f a = .ok b := by
  have hall := forall₂_of_mapM h
  clear h
  induction hall with
  | nil => simp
  | cons hhead _ ih =>
    simp only [List.mem_cons, forall_eq_or_imp, exists_eq_or_imp]
    exact ⟨⟨.inl hhead, fun a ha => .inr (ih.1 a ha)⟩, .inl hhead, fun b hb => .inr (ih.2 b hb)⟩

theorem mem_of_filterAuxM {f : α → Except ε Bool} {list found results : List α}
    (h : list.filterAuxM f found = .ok results) (a : α) :
    a ∈ results ↔ a ∈ found ∨ a ∈ list ∧ f a = .ok true := by
  induction list generalizing found with
  | nil =>
    cases h
    simp
  | cons head tail ih =>
    obtain ⟨answer, ha, h⟩ := Except.bind_eq_ok.mp h
    rw [ih h]
    cases answer with
    | false =>
      have hne (he : a = head) : f a ≠ .ok true := by
        rw [he, ha]
        simp
      simp only [cond_false, List.mem_cons]
      tauto
    | true =>
      have heq (he : a = head) : f a = .ok true := he ▸ ha
      simp only [cond_true, List.mem_cons]
      tauto

/-- The members of a list that an answer is yes for. -/
theorem mem_of_filterM {f : α → Except ε Bool} {list results : List α}
    (h : list.filterM f = .ok results) (a : α) : a ∈ results ↔ a ∈ list ∧ f a = .ok true := by
  obtain ⟨found, hfound, h⟩ := Except.bind_eq_ok.mp h
  cases h
  rw [List.mem_reverse, mem_of_filterAuxM hfound]
  simp

theorem ok_of_forM {f : α → Except ε Unit} {list : List α} (h : list.forM f = .ok ()) :
    ∀ a ∈ list, f a = .ok () := by
  induction list with
  | nil => simp
  | cons head tail ih =>
    obtain ⟨_, hhead, htail⟩ := Except.bind_eq_ok.mp h
    intro a ha
    rcases List.mem_cons.mp ha with rfl | ha
    · exact hhead
    · exact ih htail a ha

/-- What every step of a fold keeps, the whole fold keeps. -/
theorem foldlM_invariant {step : σ → α → Except ε σ} {list : List α} (motive : σ → Prop)
    (hstep : ∀ s a s', a ∈ list → motive s → step s a = .ok s' → motive s') {s s' : σ}
    (hs : motive s) (h : list.foldlM step s = .ok s') : motive s' := by
  induction list generalizing s with
  | nil =>
    cases h
    exact hs
  | cons head tail ih =>
    rw [List.foldlM_cons, Except.bind_eq_ok] at h
    obtain ⟨middle, hm, h⟩ := h
    exact ih (fun s a s' ha => hstep s a s' (List.mem_cons_of_mem _ ha))
      (hstep s head middle List.mem_cons_self hs hm) h

/-- A fold whose steps move along a preorder, each establishing something of its member that lasts
along the preorder. -/
theorem foldlM_along {step : σ → α → Except ε σ} {list : List α} (R : σ → σ → Prop)
    (Q : α → σ → Prop) (hrefl : ∀ s, R s s) (htrans : ∀ {a b c}, R a b → R b c → R a c)
    (hlast : ∀ {a s s'}, Q a s → R s s' → Q a s')
    (hstep : ∀ s a s', a ∈ list → step s a = .ok s' → R s s' ∧ Q a s') {s s' : σ}
    (h : list.foldlM step s = .ok s') : R s s' ∧ ∀ a ∈ list, Q a s' := by
  induction list generalizing s with
  | nil =>
    cases h
    exact ⟨hrefl _, by simp⟩
  | cons head tail ih =>
    rw [List.foldlM_cons, Except.bind_eq_ok] at h
    obtain ⟨middle, hm, h⟩ := h
    obtain ⟨hR, hQ⟩ := hstep s head middle List.mem_cons_self hm
    obtain ⟨hR', hQ'⟩ := ih (fun s a s' ha => hstep s a s' (List.mem_cons_of_mem _ ha)) h
    refine ⟨htrans hR hR', fun a ha => ?_⟩
    rcases List.mem_cons.mp ha with rfl | ha
    · exact hlast hQ hR'
    · exact hQ' a ha

/-- A fold that succeeds is the fold of what its steps give. -/
theorem foldlM_eq_ok {step : σ → α → Except ε σ} {f : σ → α → σ}
    (hstep : ∀ s a s', step s a = .ok s' → s' = f s a) {list : List α} {s s' : σ}
    (h : list.foldlM step s = .ok s') : s' = list.foldl f s := by
  induction list generalizing s with
  | nil =>
    cases h
    rfl
  | cons head tail ih =>
    rw [List.foldlM_cons, Except.bind_eq_ok] at h
    obtain ⟨middle, hm, h⟩ := h
    rw [ih h, hstep s head middle hm, List.foldl_cons]

/-- Member by member, one relation after another. -/
theorem forall₂_comp {γ : Type} {R : α → β → Prop} {S : β → γ → Prop} {T : α → γ → Prop}
    (h : ∀ a b c, R a b → S b c → T a c) {as : List α} {bs : List β} {cs : List γ}
    (hab : List.Forall₂ R as bs) (hbc : List.Forall₂ S bs cs) : List.Forall₂ T as cs := by
  induction hab generalizing cs with
  | nil =>
    cases hbc
    exact .nil
  | cons ha _ ih =>
    cases hbc with
    | cons hb hbc => exact .cons (h _ _ _ ha hb) (ih hbc)

theorem forall_mem_of_forall₂ {p : β → Prop} {as : List α} {bs : List β}
    (h : List.Forall₂ (fun _ b => p b) as bs) : ∀ b ∈ bs, p b := by
  induction h with
  | nil => simp
  | cons hb _ ih =>
    intro b hmem
    rcases List.mem_cons.mp hmem with rfl | hmem
    · exact hb
    · exact ih b hmem

theorem exists_mem_of_forall₂ {R : α → β → Prop} {as : List α} {bs : List β}
    (h : List.Forall₂ R as bs) {a : α} (ha : a ∈ as) : ∃ b ∈ bs, R a b := by
  induction h with
  | nil => cases ha
  | @cons _ b _ _ hhead _ ih =>
    obtain rfl | ha := List.mem_cons.1 ha
    · exact ⟨b, List.mem_cons_self, hhead⟩
    · obtain ⟨b, hb, hr⟩ := ih ha
      exact ⟨b, List.mem_cons_of_mem _ hb, hr⟩

theorem rel_of_forall₂ {R : α → β → Prop} {as : List α} {bs : List β} (h : List.Forall₂ R as bs)
    {i : Nat} {a : α} {b : β} (ha : as[i]? = some a) (hb : bs[i]? = some b) : R a b := by
  induction h generalizing i with
  | nil => simp at ha
  | cons hhead _ ih =>
    cases i with
    | zero =>
      cases ha
      cases hb
      exact hhead
    | succ i => exact ih ha hb

theorem mem_of_lookup_eq_some [BEq α] [LawfulBEq α] {key : α} {value : β}
    {entries : List (α × β)} (h : entries.lookup key = some value) : (key, value) ∈ entries := by
  obtain ⟨l₁, l₂, rfl, -⟩ := List.lookup_eq_some_iff.mp h
  simp

end JvmTrim
