import Taco.Tensor.Sync

/-! What evaluation can do to the tensors, whatever their state. -/

namespace Taco.Tensor

variable {T Coord V E : Type}

/-- The computation of a tensor's assignment is still to be done. -/
def Pending (s : State T Coord V E) (t : T) : Prop := ∃ k, s t = some k ∧ k.needsCompute = true

theorem Pending.of_set [DecidableEq T] {s : State T Coord V E} {t d : T} {k k' : Content T Coord V E} (hk : s t = some k)
    (h : k'.needsCompute = true → k.needsCompute = true) (hd : Pending (s.set t k') d) : Pending s d := by
  obtain ⟨kd, hkd, hneeds⟩ := hd
  by_cases hdt : d = t
  · subst hdt
    rw [State.set_self] at hkd
    cases hkd
    exact ⟨k, hk, h hneeds⟩
  · rw [State.set_of_ne s k' hdt] at hkd
    exact ⟨kd, hkd, hneeds⟩

/-- What evaluation can do to a content: work is done, entries of dependents are removed. -/
structure Content.Evolved (k k' : Content T Coord V E) : Prop where
  order : k'.order = k.order
  assignment : k'.assignment = k.assignment
  refersToSelf : k'.refersToSelf = k.refersToSelf
  needsPack : k'.needsPack = true → k.needsPack = true
  needsCompile : k'.needsCompile = true → k.needsCompile = true
  needsCompute : k'.needsCompute = true → k.needsCompute = true
  dependentTensors : List.Subperm k'.dependentTensors k.dependentTensors

theorem Content.Evolved.refl (k : Content T Coord V E) : k.Evolved k :=
  ⟨rfl, rfl, rfl, id, id, id, List.Subperm.refl _⟩

theorem Content.Evolved.trans {k k' k'' : Content T Coord V E} (h : k.Evolved k') (h' : k'.Evolved k'') : k.Evolved k'' :=
  ⟨h'.order.trans h.order, h'.assignment.trans h.assignment, h'.refersToSelf.trans h.refersToSelf,
    h.needsPack ∘ h'.needsPack, h.needsCompile ∘ h'.needsCompile, h.needsCompute ∘ h'.needsCompute,
    h'.dependentTensors.trans h.dependentTensors⟩

/-- What evaluation can do to the tensors: only those that are computed lose their entries as dependents. -/
structure Evolves (s s' : State T Coord V E) : Prop where
  destroyed : ∀ t, s t = none → s' t = none
  evolved : ∀ t k, s t = some k → ∃ k', s' t = some k' ∧ k.Evolved k'
  entries : ∀ t k k' d, s t = some k → s' t = some k' → d ∈ k.dependentTensors → Pending s' d → d ∈ k'.dependentTensors

namespace Evolves

variable {s s' s'' : State T Coord V E}

theorem refl (s : State T Coord V E) : Evolves s s where
  destroyed _ h := h
  evolved _ k h := ⟨k, h, .refl k⟩
  entries t k k' d h h' hd _ := by
    cases h.symm.trans h'
    exact hd

theorem pending (h : Evolves s s') {t : T} (ht : Pending s' t) : Pending s t := by
  obtain ⟨k', hk', hneeds⟩ := ht
  cases hst : s t with
  | none => simp [h.destroyed t hst] at hk'
  | some k =>
    obtain ⟨k₁, hk₁, hevolved⟩ := h.evolved t k hst
    cases hk'.symm.trans hk₁
    exact ⟨k, hst, hevolved.needsCompute hneeds⟩

theorem trans (h : Evolves s s') (h' : Evolves s' s'') : Evolves s s'' where
  destroyed t ht := h'.destroyed t (h.destroyed t ht)
  evolved t k ht := by
    obtain ⟨k', hk', hevolved⟩ := h.evolved t k ht
    obtain ⟨k'', hk'', hevolved'⟩ := h'.evolved t k' hk'
    exact ⟨k'', hk'', hevolved.trans hevolved'⟩
  entries t k k'' d ht ht'' hd hpending := by
    obtain ⟨k', hk', -⟩ := h.evolved t k ht
    exact h'.entries t k' k'' d hk' ht'' (h.entries t k k' d ht hk' hd (h'.pending hpending)) hpending

/-- The content a tensor had before. -/
theorem exists_of_eq_some (h : Evolves s s') {t : T} {k' : Content T Coord V E} (ht : s' t = some k') :
    ∃ k, s t = some k ∧ k.Evolved k' := by
  cases hst : s t with
  | none => simp [h.destroyed t hst] at ht
  | some k =>
    obtain ⟨k₁, hk₁, hevolved⟩ := h.evolved t k hst
    cases ht.symm.trans hk₁
    exact ⟨k, rfl, hevolved⟩

variable [DecidableEq T]

/-- One content evolves; it keeps the entries of the pending tensors. -/
theorem set {t : T} {k k' : Content T Coord V E} (hk : s t = some k) (h : k.Evolved k')
    (hentries : ∀ d ∈ k.dependentTensors, Pending (s.set t k') d → d ∈ k'.dependentTensors) : Evolves s (s.set t k') where
  destroyed u hu := by
    have hne : u ≠ t := by
      rintro rfl
      cases hk.symm.trans hu
    rw [State.set_of_ne s k' hne, hu]
  evolved u k₁ hu := by
    by_cases hut : u = t
    · subst hut
      cases hk.symm.trans hu
      exact ⟨k', State.set_self s u k', h⟩
    · exact ⟨k₁, by rw [State.set_of_ne s k' hut, hu], .refl k₁⟩
  entries u k₁ k₂ d hu hu' hd hpending := by
    by_cases hut : u = t
    · subst hut
      cases hk.symm.trans hu
      rw [State.set_self] at hu'
      cases hu'
      exact hentries d hd hpending
    · rw [State.set_of_ne s k' hut] at hu'
      cases hu.symm.trans hu'
      exact hd

end Evolves

/-! ### Each part of evaluation -/

section Parts

variable [DecidableEq T] {s s' : State T Coord V E} {t u : T}

theorem removeDependentTensor_evolves (ht : ¬ Pending s t) (h : removeDependentTensor u t s = .ok s') : Evolves s s' := by
  obtain ⟨k, hk, h⟩ := ok_of_bind h
  rw [State.get_eq_ok] at hk
  cases h
  have hsub : (removeEntry t k.dependentTensors).Subperm k.dependentTensors :=
    (removeEntry_perm t k.dependentTensors).subperm.trans List.erase_sublist.subperm
  refine Evolves.set hk ⟨rfl, rfl, rfl, id, id, id, hsub⟩ fun d hd hpending => mem_removeEntry_of_ne ?_ hd
  -- The removed entry is not one of a pending tensor.
  rintro rfl
  refine ht (hpending.of_set hk ?_)
  exact id

theorem compile_evolves (h : compile t s = .ok s') : Evolves s s' := by
  obtain ⟨k, hk, h⟩ := ok_of_bind h
  rw [State.get_eq_ok] at hk
  split at h
  · cases h
  · split_ifs at h <;> cases h
    · exact Evolves.set hk ⟨rfl, rfl, rfl, id, Bool.noConfusion, id, .refl _⟩ fun d hd _ => hd
    · exact .refl s

variable [DecidableEq Coord] [AddCommMonoid V] {kernels : Kernels T Coord V E}

theorem callAssemble_evolves (h : callAssemble kernels t s = .ok s') : Evolves s s' := by
  obtain ⟨k, hk, h⟩ := ok_of_bind h
  rw [State.get_eq_ok] at hk
  split at h <;> cases h
  exact Evolves.set hk ⟨rfl, rfl, rfl, id, id, id, .refl _⟩ fun d hd _ => hd

theorem callCompute_evolves (h : callCompute kernels t s = .ok s') : Evolves s s' := by
  obtain ⟨k, hk, h⟩ := ok_of_bind h
  rw [State.get_eq_ok] at hk
  split at h
  · cases h
  · split at h <;> cases h
    exact Evolves.set hk ⟨rfl, rfl, rfl, id, id, id, .refl _⟩ fun d hd _ => hd

theorem pack_evolves (h : pack t s = .ok s') : Evolves s s' := by
  obtain ⟨k, hk, h⟩ := ok_of_bind h
  obtain ⟨k', hk', h⟩ := ok_of_bind h
  rw [State.get_eq_ok] at hk
  cases h
  have hframe := Content.pack_frame hk'
  rw [hframe]
  exact Evolves.set hk ⟨rfl, rfl, rfl, Bool.noConfusion, id, id, .refl _⟩ fun d hd _ => hd

variable {sync : T → State T Coord V E → Except Fault (State T Coord V E)}

omit [DecidableEq T] [DecidableEq Coord] [AddCommMonoid V] in
/-- Syncing one tensor after the other. -/
theorem foldlM_evolves (hsync : ∀ t s s', sync t s = .ok s' → Evolves s s') {l : List T}
    (h : l.foldlM (fun s u => sync u s) s = .ok s') : Evolves s s' := by
  have hfold : Outcome (fun s' => Evolves s s') (fun _ => True) (l.foldlM (fun s u => sync u s) s) := by
    refine Outcome.foldlM_of_forall (fun u _ s₁ hs₁ => ?_) (.refl s)
    cases hu : sync u s₁ with
    | ok s₂ => exact hs₁.trans (hsync u s₁ s₂ hu)
    | error e => trivial
  exact hfold.of_eq_ok h

theorem assemble_evolves (hsync : ∀ t s s', sync t s = .ok s' → Evolves s s') (h : assemble kernels sync t s = .ok s') :
    Evolves s s' := by
  obtain ⟨k, -, h⟩ := ok_of_bind h
  split_ifs at h
  · obtain ⟨s₁, hs₁, h⟩ := ok_of_bind h
    exact (foldlM_evolves hsync hs₁).trans (callAssemble_evolves h)
  · cases h
    exact .refl s

omit [DecidableEq Coord] [AddCommMonoid V] in
/-- A tensor is no longer pending from the moment its computation starts. -/
theorem clear_evolves {k : Content T Coord V E} (hk : s t = some k) :
    Evolves s (s.set t { k with needsCompute := false }) ∧ ¬ Pending (s.set t { k with needsCompute := false }) t := by
  refine ⟨Evolves.set hk ⟨rfl, rfl, rfl, id, id, Bool.noConfusion, .refl _⟩ fun d hd _ => hd, ?_⟩
  rintro ⟨k', hk', hneeds⟩
  rw [State.set_self] at hk'
  cases hk'
  cases hneeds

/-- Computing a tensor leaves it computed. -/
theorem compute_evolves (hsync : ∀ t s s', sync t s = .ok s' → Evolves s s') (h : compute kernels sync t s = .ok s') :
    Evolves s s' ∧ ¬ Pending s' t := by
  obtain ⟨k, hk, h⟩ := ok_of_bind h
  rw [State.get_eq_ok] at hk
  split_ifs at h with hcompile hneeds
  · obtain ⟨s₁, hs₁, h⟩ := ok_of_bind h
    obtain ⟨hstart, hdone⟩ := clear_evolves hk
    -- The tensor whose entries are removed is no longer pending.
    have hfold : Outcome (fun s' => Evolves (s.set t { k with needsCompute := false }) s') (fun _ => True)
        ((kernels.operandsOf k).foldlM (fun s u => sync u s >>= removeDependentTensor u t)
          (s.set t { k with needsCompute := false })) := by
      refine Outcome.foldlM_of_forall (fun u _ s₁ hs₁ => ?_) (.refl _)
      cases hu : sync u s₁ >>= removeDependentTensor u t with
      | error e => trivial
      | ok s₃ =>
        obtain ⟨s₂, hs₂, hs₃⟩ := ok_of_bind hu
        have h₂ := hs₁.trans (hsync u s₁ s₂ hs₂)
        exact h₂.trans (removeDependentTensor_evolves (fun hp => hdone (h₂.pending hp)) hs₃)
    have hrest := (hfold.of_eq_ok hs₁).trans (callCompute_evolves h)
    exact ⟨hstart.trans hrest, fun hp => hdone (hrest.pending hp)⟩
  · cases h
    refine ⟨.refl s, ?_⟩
    rintro ⟨k', hk', hneeds'⟩
    cases hk.symm.trans hk'
    exact hneeds hneeds'

theorem syncBody_evolves (hsync : ∀ t s s', sync t s = .ok s' → Evolves s s') (h : syncBody kernels sync t s = .ok s') :
    Evolves s s' := by
  obtain ⟨k, hk, h⟩ := ok_of_bind h
  split_ifs at h
  · exact pack_evolves (s := s) (by rw [pack, hk]; exact h)
  · obtain ⟨s₂, hs₂, h⟩ := ok_of_bind h
    obtain ⟨s₁, hs₁, hs₂⟩ := ok_of_bind hs₂
    exact ((compile_evolves hs₁).trans (assemble_evolves hsync hs₂)).trans (compute_evolves hsync h).1
  · cases h
    exact .refl s

end Parts

section SyncValues

variable [DecidableEq T] [DecidableEq Coord] [AddCommMonoid V] (kernels : Kernels T Coord V E)

/-- `TensorBase::syncValues`, to a depth of `fuel` calls. -/
def syncValues (fuel : ℕ) : T → State T Coord V E → Except Fault (State T Coord V E) :=
  recurse (syncBody kernels) .outOfDepth fuel

variable {kernels} {s s' : State T Coord V E} {t : T}

theorem syncValues_evolves {fuel : ℕ} (h : syncValues kernels fuel t s = .ok s') : Evolves s s' := by
  have hgen : ∀ s', syncValues kernels fuel t s = .ok s' → Evolves s s' :=
    recurse_induct (P := fun _ s r => ∀ s', r = .ok s' → Evolves s s') (fun _ _ _ h => by cases h)
      (fun sync hsync t s s' h => syncBody_evolves (fun t s s' h => hsync t s s' h) h) fuel t s
  exact hgen s' h

end SyncValues

end Taco.Tensor
