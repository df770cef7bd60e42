import Taco.Tensor.Termination

/-! The entries of dependents name living tensors. -/

namespace Taco.Tensor

variable {T Coord V E : Type} [DecidableEq T] [DecidableEq Coord] [AddCommMonoid V] {kernels : Kernels T Coord V E}
  {s s' s₀ : State T Coord V E} {t u : T}

/-! ### Evaluation uses living tensors -/

/-- A part of evaluation does not use the content of a destroyed tensor. -/
def Safe (s : State T Coord V E) (x : Except Fault (State T Coord V E)) : Prop :=
  Outcome (Evolves s) (· ≠ .nullDereference) x

omit [DecidableEq T] [DecidableEq Coord] [AddCommMonoid V] in
theorem safe_of {x : Except Fault (State T Coord V E)} (hok : ∀ s', x = .ok s' → Evolves s s')
    (hne : x ≠ .error .nullDereference) : Safe s x := by
  cases x with
  | ok s' => exact hok s' rfl
  | error e =>
    rintro rfl
    exact hne rfl

omit [DecidableEq T] [DecidableEq Coord] [AddCommMonoid V] in
theorem Safe.bind {x : Except Fault (State T Coord V E)} {f : State T Coord V E → Except Fault (State T Coord V E)}
    (h : Safe s x) (hf : ∀ s', Evolves s s' → Safe s' (f s')) : Safe s (x >>= f) :=
  Outcome.bind h fun s' hs' => (hf s' hs').mono (fun _ h' => hs'.trans h') fun _ he => he

omit [DecidableEq Coord] [AddCommMonoid V] in
theorem compile_safe {k : Content T Coord V E} (hk : s t = some k) : Safe s (compile t s) := by
  refine safe_of (fun s' => compile_evolves) ?_
  cases hassign : k.assignment <;> simp [compile, State.get_eq_ok.mpr hk, hassign]

theorem callAssemble_safe {k : Content T Coord V E} (hk : s t = some k) : Safe s (callAssemble kernels t s) := by
  refine safe_of (fun s' => callAssemble_evolves) ?_
  cases hmodule : k.module <;> simp [callAssemble, State.get_eq_ok.mpr hk, hmodule]

theorem callCompute_safe {k : Content T Coord V E} (hk : s t = some k) : Safe s (callCompute kernels t s) := by
  refine safe_of (fun s' => callCompute_evolves) ?_
  cases hmodule : k.module with
  | none => simp [callCompute, State.get_eq_ok.mpr hk, hmodule]
  | some e =>
    cases hcompute : kernels.compute e k.storage (packArguments kernels s k) <;>
      simp [callCompute, State.get_eq_ok.mpr hk, hmodule, hcompute]

theorem pack_safe {k : Content T Coord V E} (hk : s t = some k) : Safe s (pack t s) := by
  refine safe_of (fun s' => pack_evolves) ?_
  have hpack := k.pack_outcome
  cases hk' : k.pack with
  | error e =>
    rw [hk'] at hpack
    simp [pack, State.get_eq_ok.mpr hk, hk', show e = .outOfBounds from hpack]
  | ok k' => simp [pack, State.get_eq_ok.mpr hk, hk']

section Parts

variable {k : Content T Coord V E} (hk : s t = some k) {sync : T → State T Coord V E → Except Fault (State T Coord V E)}
  (hsync : ∀ u ∈ kernels.operandsOf k, ∀ s', Evolves s s' → Safe s' (sync u s'))

include hk hsync

theorem assemble_safe : Safe s (assemble kernels sync t s) := by
  rw [assemble, State.get_eq_ok.mpr hk, ok_bind]
  split_ifs
  · intro h
    cases h
  · refine Safe.bind ?_ fun s' hs' => ?_
    · refine Outcome.foldlM_of_forall (fun u hu s' hs' => ?_) (.refl s)
      exact (hsync u hu s' hs').mono (fun _ h => hs'.trans h) fun _ he => he
    · obtain ⟨k', hk', -⟩ := hs'.evolved t k hk
      exact callAssemble_safe hk'
  · exact .refl s

theorem compute_safe (hliving : ∀ u ∈ kernels.operandsOf k, ∃ ku, s u = some ku) :
    Safe s (compute kernels sync t s) := by
  rw [compute, State.get_eq_ok.mpr hk, ok_bind]
  split_ifs
  · intro h
    cases h
  · obtain ⟨hstart, hdone⟩ := clear_evolves hk
    have hfold : Safe (s.set t { k with needsCompute := false })
        ((kernels.operandsOf k).foldlM (fun s u => sync u s >>= removeDependentTensor u t)
          (s.set t { k with needsCompute := false })) := by
      refine Outcome.foldlM_of_forall (fun u hu s' hs' => ?_) (.refl _)
      obtain ⟨ku, hku⟩ := hliving u hu
      refine ((hsync u hu s' (hstart.trans hs')).bind fun s'' hs'' => ?_).mono (fun _ h => hs'.trans h) fun _ he => he
      obtain ⟨ku'', hku'', -⟩ := ((hstart.trans hs').trans hs'').evolved u ku hku
      refine safe_of (fun s₃ => removeDependentTensor_evolves fun hp => hdone (hs'.pending (hs''.pending hp))) ?_
      simp [removeDependentTensor, State.get_eq_ok.mpr hku'']
    refine (hfold.bind fun s' hs' => ?_).mono (fun _ h => hstart.trans h) fun _ he => he
    obtain ⟨k', hk', -⟩ := (hstart.trans hs').evolved t k hk
    exact callCompute_safe hk'
  · exact .refl s

end Parts

/-- Syncing a living tensor uses living tensors. -/
theorem syncValues_safe (fuel : ℕ) (hs : Registered kernels s) (ht : ∃ k, s t = some k) :
    Safe s (syncValues kernels fuel t s) := by
  induction fuel generalizing s t with
  | zero =>
    intro h
    cases h
  | succ fuel ih =>
    change Safe s (syncBody kernels (syncValues kernels fuel) t s)
    obtain ⟨k, hk⟩ := ht
    rw [syncBody, State.get_eq_ok.mpr hk, ok_bind]
    have hsync : ∀ s' k', Evolves s s' → s' t = some k' → ∀ u ∈ kernels.operandsOf k', ∀ s'', Evolves s' s'' →
        Safe s'' (syncValues kernels fuel u s'') := by
      intro s' k' hs' hk' u hu s'' hs''
      have hregistered := hs.of_evolves hs'
      obtain ⟨ku, hku⟩ := hregistered.living t k' u hk' hu
      obtain ⟨ku'', hku'', -⟩ := hs''.evolved u ku hku
      exact ih (hregistered.of_evolves hs'') ⟨ku'', hku''⟩
    split_ifs
    · have hpack := pack_safe hk
      rwa [pack, State.get_eq_ok.mpr hk, ok_bind] at hpack
    · refine Safe.bind (Safe.bind (compile_safe hk) fun s' hs' => ?_) fun s' hs' => ?_
      · obtain ⟨k', hk', -⟩ := hs'.evolved t k hk
        exact assemble_safe hk' (hsync s' k' hs' hk')
      · obtain ⟨k', hk', -⟩ := hs'.evolved t k hk
        exact compute_safe hk' (hsync s' k' hs' hk') fun u hu => (hs.of_evolves hs').living t k' u hk' hu
    · exact .refl s

/-! ### Entries of waiting tensors -/

/-- While tensors are evaluated: each tensor has at most one entry for a mortal one, which waits to be computed from it, and
    a tensor that a waiting one had to read is up to date if that one waits no more; but for the pairs `A` of an operand and
    a tensor that is being computed. -/
structure Between (kernels : Kernels T Coord V E) (mortal : T → Prop) (s₀ : State T Coord V E) (A : T → T → Prop)
    (s : State T Coord V E) : Prop where
  evolves : Evolves s₀ s
  once : ∀ u k d, s u = some k → mortal d → k.dependentTensors.count d ≤ 1
  entry : ∀ u k d, s u = some k → mortal d → d ∈ k.dependentTensors → Reads kernels s u d ∨ A u d
  read : ∀ u d, Reads kernels s₀ u d → Reads kernels s u d ∨ Synced s u ∨ A u d

/-- Each tensor has at most one entry for a mortal one, which waits to be computed from it. -/
structure Tidy (kernels : Kernels T Coord V E) (mortal : T → Prop) (s : State T Coord V E) : Prop where
  once : ∀ u k d, s u = some k → mortal d → k.dependentTensors.count d ≤ 1
  entry : ∀ u k d, s u = some k → mortal d → d ∈ k.dependentTensors → Reads kernels s u d

variable {mortal : T → Prop} {A : T → T → Prop}

theorem Tidy.between (hs : Tidy kernels mortal s) : Between kernels mortal s (fun _ _ => False) s where
  evolves := .refl s
  once := hs.once
  entry u k d hk hd hmem := .inl (hs.entry u k d hk hd hmem)
  read _ _ hread := .inl hread

theorem Between.tidy (hs : Between kernels mortal s₀ (fun _ _ => False) s) : Tidy kernels mortal s where
  once := hs.once
  entry u k d hk hd hmem := (hs.entry u k d hk hd hmem).resolve_right id

/-- A part of evaluation that only tensors being computed lose a reader by. -/
theorem Between.step {B : T → T → Prop} (hs : Between kernels mortal s₀ A s) (hevolves : Evolves s s')
    (hA : ∀ u d, A u d → B u d) (hreads : ∀ u d, Reads kernels s u d → Reads kernels s' u d ∨ B u d) :
    Between kernels mortal s₀ B s' where
  evolves := hs.evolves.trans hevolves
  once u k' d hk' hd := by
    obtain ⟨k, hk, hevolved⟩ := hevolves.exists_of_eq_some hk'
    exact (hevolved.dependentTensors.count_le d).trans (hs.once u k d hk hd)
  entry u k' d hk' hd hmem := by
    obtain ⟨k, hk, hevolved⟩ := hevolves.exists_of_eq_some hk'
    rcases hs.entry u k d hk hd (hevolved.dependentTensors.subset hmem) with hread | h
    · exact hreads u d hread
    · exact .inr (hA u d h)
  read u d hread := by
    rcases hs.read u d hread with hread | hsynced | h
    · exact (hreads u d hread).imp_right .inr
    · exact .inr (.inl (hsynced.of_evolves hevolves))
    · exact .inr (.inr (hA u d h))

theorem Reads.set {d : T} {k k' : Content T Coord V E} (hk : s t = some k) (hassign : k'.assignment = k.assignment)
    (hneeds : k'.needsCompute = k.needsCompute) (h : Reads kernels s u d) : Reads kernels (s.set t k') u d := by
  obtain ⟨kd, hkd, hpending, hu⟩ := h
  by_cases hdt : d = t
  · subst hdt
    cases hk.symm.trans hkd
    exact ⟨k', State.set_self s d k', hneeds.trans hpending, by rwa [Kernels.operandsOf, hassign]⟩
  · exact ⟨kd, by rw [State.set_of_ne s k' hdt, hkd], hpending, hu⟩

/-- A part of evaluation that changes neither an assignment nor whether it is computed. -/
theorem Between.set {k k' : Content T Coord V E} (hs : Between kernels mortal s₀ A s) (hk : s t = some k)
    (hevolves : Evolves s (s.set t k')) (hassign : k'.assignment = k.assignment)
    (hneeds : k'.needsCompute = k.needsCompute) : Between kernels mortal s₀ A (s.set t k') :=
  hs.step hevolves (fun _ _ => id) fun _ _ hread => .inl (hread.set hk hassign hneeds)

theorem compile_between (hs : Between kernels mortal s₀ A s) (t : T) :
    Outcome (Between kernels mortal s₀ A) (fun _ => True) (compile t s) := by
  cases h : compile t s with
  | error e => trivial
  | ok s' =>
    have hevolves := compile_evolves h
    obtain ⟨k, hk, h⟩ := ok_of_bind h
    rw [State.get_eq_ok] at hk
    cases hassign : k.assignment with
    | none => simp [hassign] at h
    | some e =>
      simp only [hassign, Except.ok.injEq] at h
      subst h
      split_ifs at hevolves ⊢
      · exact hs.set hk hevolves hassign.symm rfl
      · exact hs

theorem callAssemble_between (hs : Between kernels mortal s₀ A s) (t : T) :
    Outcome (Between kernels mortal s₀ A) (fun _ => True) (callAssemble kernels t s) := by
  cases h : callAssemble kernels t s with
  | error e => trivial
  | ok s' =>
    have hevolves := callAssemble_evolves h
    obtain ⟨k, hk, h⟩ := ok_of_bind h
    rw [State.get_eq_ok] at hk
    cases hmodule : k.module with
    | none => simp [hmodule] at h
    | some e =>
      simp only [hmodule, Except.ok.injEq] at h
      subst h
      exact hs.set hk hevolves rfl rfl

theorem callCompute_between (hs : Between kernels mortal s₀ A s) (t : T) :
    Outcome (Between kernels mortal s₀ A) (fun _ => True) (callCompute kernels t s) := by
  cases h : callCompute kernels t s with
  | error e => trivial
  | ok s' =>
    have hevolves := callCompute_evolves h
    obtain ⟨k, hk, h⟩ := ok_of_bind h
    rw [State.get_eq_ok] at hk
    cases hmodule : k.module with
    | none => simp [hmodule] at h
    | some e =>
      cases hcompute : kernels.compute e k.storage (packArguments kernels s k) with
      | none => simp [hmodule, hcompute] at h
      | some st =>
        simp only [hmodule, hcompute, Except.ok.injEq] at h
        subst h
        exact hs.set hk hevolves rfl rfl

omit [DecidableEq Coord] [AddCommMonoid V] in
/-- The only entry of a tensor is removed. -/
theorem not_mem_removeEntry {l : List T} (h : l.count t ≤ 1) : t ∉ removeEntry t l := by
  rw [← List.count_eq_zero, (removeEntry_perm t l).count_eq, List.count_erase_self]
  omega

/-- The pairs of the tensor that is computed and its operands that are not synced yet. -/
def Unlinked (A : T → T → Prop) (t : T) (operands before : List T) (u d : T) : Prop :=
  A u d ∨ d = t ∧ u ∈ operands ∧ u ∉ before

theorem compute_between {fuel : ℕ} (hs₀ : Registered kernels s₀)
    (hsync : ∀ A u s, Between kernels mortal s₀ A s →
      Outcome (Between kernels mortal s₀ A) (fun _ => True) (syncValues kernels fuel u s))
    (hs : Between kernels mortal s₀ A s) (t : T) :
    Outcome (Between kernels mortal s₀ A) (fun _ => True) (compute kernels (syncValues kernels fuel) t s) := by
  cases hk : s t with
  | none => simp [compute, State.get, hk]
  | some k =>
    rw [compute, State.get_eq_ok.mpr hk, ok_bind]
    split_ifs
    · trivial
    · obtain ⟨hstart, hdone⟩ := clear_evolves hk
      refine Outcome.bind (Q := Between kernels mortal s₀ A) ?_ fun s' hs' => callCompute_between hs' t
      have hfold : Outcome (fun s' => Between kernels mortal s₀ (Unlinked A t (kernels.operandsOf k) (kernels.operandsOf k)) s' ∧
          ¬ Pending s' t) (fun _ => True) ((kernels.operandsOf k).foldlM
            (fun s u => syncValues kernels fuel u s >>= removeDependentTensor u t) (s.set t { k with needsCompute := false })) := by
        refine Outcome.foldlM (fun before s' => Between kernels mortal s₀ (Unlinked A t (kernels.operandsOf k) before) s' ∧
          ¬ Pending s' t) ?_ ⟨hs.step hstart (fun _ _ => .inl) fun u d hread => ?_, hdone⟩
        · rintro before u after s₁ hl ⟨hs₁, hnot₁⟩
          cases hsync₂ : syncValues kernels fuel u s₁ with
          | error e => trivial
          | ok s₂ =>
            have hs₂ := (hsync _ u s₁ hs₁).of_eq_ok hsync₂
            have hsynced := syncValues_synced (hs₀.of_evolves hs₁.evolves) hsync₂
            have hnot₂ : ¬ Pending s₂ t := fun hp => hnot₁ ((syncValues_evolves hsync₂).pending hp)
            rw [ok_bind]
            cases hs₃ : removeDependentTensor u t s₂ with
            | error e => trivial
            | ok s₃ =>
              have hevolves := removeDependentTensor_evolves hnot₂ hs₃
              refine ⟨?_, fun hp => hnot₂ (hevolves.pending hp)⟩
              obtain ⟨ku, hku, hs₃⟩ := ok_of_bind hs₃
              rw [State.get_eq_ok] at hku
              cases hs₃
              have hall := hs₂.set hku hevolves rfl rfl
              -- The pair of this operand is settled: the tensor has no entry there, and the operand is up to date.
              refine ⟨hall.evolves, hall.once, fun w kw d hkw hd hmem => ?_, fun w d hread => ?_⟩
              · refine (hall.entry w kw d hkw hd hmem).imp_right ?_
                rintro (hA | ⟨rfl, hw, hbefore⟩)
                · exact .inl hA
                · refine .inr ⟨rfl, hw, fun hmem' => ?_⟩
                  rcases List.mem_append.mp hmem' with hmem' | hmem'
                  · exact hbefore hmem'
                  · rw [List.mem_singleton.mp hmem', State.set_self] at hkw
                    cases hkw
                    exact not_mem_removeEntry (hs₂.once u ku d hku hd) hmem
              · rcases hall.read w d hread with hread | hsynced' | hA | ⟨rfl, hw, hbefore⟩
                · exact .inl hread
                · exact .inr (.inl hsynced')
                · exact .inr (.inr (.inl hA))
                · by_cases hwu : w = u
                  · exact .inr (.inl (hwu ▸ hsynced.of_evolves hevolves))
                  · exact .inr (.inr (.inr ⟨rfl, hw, by simp [hbefore, hwu]⟩))
        · by_cases hdt : d = t
          · obtain ⟨kd, hkd, -, hu⟩ := hread
            subst hdt
            cases hk.symm.trans hkd
            exact .inr (.inr ⟨rfl, hu, List.not_mem_nil⟩)
          · obtain ⟨kd, hkd, hneeds, hu⟩ := hread
            exact .inl ⟨kd, by rw [State.set_of_ne s _ hdt, hkd], hneeds, hu⟩
      refine hfold.mono (fun s' hs' => hs'.1.step (.refl s') ?_ fun _ _ => .inl) fun _ _ => trivial
      rintro u d (hA | ⟨-, hu, hnot⟩)
      · exact hA
      · exact absurd hu hnot
    · exact hs

theorem assemble_between {fuel : ℕ}
    (hsync : ∀ A u s, Between kernels mortal s₀ A s →
      Outcome (Between kernels mortal s₀ A) (fun _ => True) (syncValues kernels fuel u s))
    (hs : Between kernels mortal s₀ A s) (t : T) :
    Outcome (Between kernels mortal s₀ A) (fun _ => True) (assemble kernels (syncValues kernels fuel) t s) := by
  cases hk : s t with
  | none => simp [assemble, State.get, hk]
  | some k =>
    rw [assemble, State.get_eq_ok.mpr hk, ok_bind]
    split_ifs
    · trivial
    · exact Outcome.bind (Outcome.foldlM_of_forall (fun u _ s hs => hsync A u s hs) hs) fun s' hs' =>
        callAssemble_between hs' t
    · exact hs

theorem pack_between (hs : Between kernels mortal s₀ A s) (t : T) :
    Outcome (Between kernels mortal s₀ A) (fun _ => True) (pack t s) := by
  cases h : pack t s with
  | error e => trivial
  | ok s' =>
    have hevolves := pack_evolves h
    obtain ⟨k, hk, h⟩ := ok_of_bind h
    obtain ⟨k', hk', h⟩ := ok_of_bind h
    rw [State.get_eq_ok] at hk
    have hframe := Content.pack_frame hk'
    cases h
    exact hs.set hk hevolves (by rw [hframe]) (by rw [hframe])

/-- Syncing a tensor leaves no entry of a tensor that it computed. -/
theorem syncValues_between {fuel : ℕ} (hs₀ : Registered kernels s₀) (hs : Between kernels mortal s₀ A s) (t : T) :
    Outcome (Between kernels mortal s₀ A) (fun _ => True) (syncValues kernels fuel t s) := by
  induction fuel generalizing A s t with
  | zero => trivial
  | succ fuel ih =>
    change Outcome _ _ (syncBody kernels (syncValues kernels fuel) t s)
    cases hk : s t with
    | none => simp [syncBody, State.get, hk]
    | some k =>
      rw [syncBody, State.get_eq_ok.mpr hk, ok_bind]
      split_ifs
      · have hpack := pack_between hs t
        rwa [pack, State.get_eq_ok.mpr hk, ok_bind] at hpack
      · exact Outcome.bind (Outcome.bind (compile_between hs t) fun s₁ hs₁ =>
          assemble_between (fun A u s hs => ih hs u) hs₁ t) fun s₂ hs₂ => compute_between hs₀ (fun A u s hs => ih hs u) hs₂ t
      · exact hs

/-! ### Entries between operations -/

/-- Syncing the dependents of a tensor leaves the entries in order, and a tensor that is read is up to date. -/
theorem syncDependentTensors_tidy {fuel : ℕ} (hs : Registered kernels s) (htidy : Tidy kernels mortal s)
    (h : syncDependentTensors (syncValues kernels fuel) t s = .ok s') :
    Tidy kernels mortal s' ∧ ∀ d, Reads kernels s t d → ¬ Pending s' t := by
  obtain ⟨hevolves, hread, -⟩ := syncDependentTensors_spec hs h
  obtain ⟨k, hk, h⟩ := ok_of_bind h
  obtain ⟨s₁, hs₁, h⟩ := ok_of_bind h
  obtain ⟨k₁, hk₁, h⟩ := ok_of_bind h
  rw [State.get_eq_ok] at hk₁
  cases h
  have hbetween : Between kernels mortal s (fun _ _ => False) s₁ :=
    (Outcome.foldlM_of_forall (F := fun _ => True) (fun d _ s hs' => syncValues_between hs hs' d) htidy.between).of_eq_ok hs₁
  refine ⟨⟨fun u ku d hku hd => ?_, fun u ku d hku hd hmem => ?_⟩, fun d hd => ?_⟩
  · by_cases hut : u = t
    · subst hut
      rw [State.set_self] at hku
      cases hku
      exact Nat.zero_le 1
    · rw [State.set_of_ne _ _ hut] at hku
      exact hbetween.once u ku d hku hd
  · by_cases hut : u = t
    · subst hut
      rw [State.set_self] at hku
      cases hku
      cases hmem
    · rw [State.set_of_ne _ _ hut] at hku
      exact (hbetween.tidy.entry u ku d hku hd hmem).set hk₁ rfl rfl
  · rcases hbetween.read t d hd with hread' | hsynced | hfalse
    · have hstill : Reads kernels (s₁.set t { k₁ with dependentTensors := [] }) t d := hread'.set hk₁ rfl rfl
      exact absurd hstill (hread d)
    · rintro ⟨kt, hkt, hneeds⟩
      rw [State.set_self] at hkt
      cases hkt
      exact hsynced.not_pending ⟨k₁, hk₁, hneeds⟩
    · exact hfalse.elim

variable [DecidableEq E]

omit [DecidableEq Coord] [AddCommMonoid V] [DecidableEq E] in
theorem count_relinked_of_ne {d : T} (hd : d ≠ t) (old new entries : List T) :
    (relinked t old new u entries).count d = entries.count d := by
  simp only [relinked]
  split_ifs <;> simp [(removeEntry_perm t entries).count_eq, List.count_erase_of_ne hd, hd.symm]

/-- An assignment registers its tensor once with each operand, if it was dropped from all others. -/
theorem Tidy.assigned {e : E} {refersToSelf : Bool} {old : List T} (hs : Tidy kernels mortal s) (ht : ∃ k, s t = some k)
    (hold : mortal t → ∀ u, Reads kernels s u t → u ∈ old) : Tidy kernels mortal (assigned kernels t e refersToSelf old s) := by
  have hdropped : ∀ u k, s u = some k → mortal t →
      t ∉ if u ∈ old then removeEntry t k.dependentTensors else k.dependentTensors := by
    intro u k hk ht
    split_ifs with hu
    · exact not_mem_removeEntry (hs.once u k t hk ht)
    · exact fun hmem => hu (hold ht u (hs.entry u k t hk ht hmem))
  refine ⟨fun u k' d hk' hd => ?_, fun u k' d hk' hd hmem => ?_⟩
  · obtain ⟨k, hk, rfl⟩ := assigned_eq_some hk'
    by_cases hdt : d = t
    · subst hdt
      have hcount := List.count_eq_zero.mpr (hdropped u k hk hd)
      simp only [relinked]
      split_ifs at hcount ⊢ <;> simp [hcount]
    · simp only [count_relinked_of_ne hdt]
      exact hs.once u k d hk hd
  · obtain ⟨k, hk, rfl⟩ := assigned_eq_some hk'
    by_cases hdt : d = t
    · subst hdt
      have hu : u ∈ kernels.operands e := by
        by_contra hu
        simp only [relinked, if_neg hu] at hmem
        exact hdropped u k hk hd hmem
      obtain ⟨kd, hkd⟩ := ht
      refine ⟨_, by rw [Tensor.assigned, hkd]; rfl, ?_, ?_⟩
      · simp [Content.assign]
      · simpa [Content.assign, Kernels.operandsOf] using hu
    · simp only [mem_relinked_of_ne hdt] at hmem
      obtain ⟨kd, hkd, hneeds, hu⟩ := hs.entry u k d hk hd hmem
      refine ⟨_, by rw [Tensor.assigned, hkd]; rfl, ?_, ?_⟩
      · simpa [hdt] using hneeds
      · simpa [hdt, Kernels.operandsOf] using hu

/-! ### Operations -/

/-- The entries that a tensor has name living tensors. -/
structure EntriesLive (kernels : Kernels T Coord V E) (mortal : T → Prop) (s : State T Coord V E) : Prop where
  registered : Registered kernels s
  tidy : Tidy kernels mortal s
  immortal : ∀ t, ¬ mortal t → ∃ k, s t = some k

omit [DecidableEq E] in
theorem EntriesLive.living (hs : EntriesLive kernels mortal s) {k : Content T Coord V E} {d : T} (hk : s t = some k)
    (hd : d ∈ k.dependentTensors) : ∃ kd, s d = some kd := by
  by_cases hmortal : mortal d
  · obtain ⟨kd, hkd, -⟩ := hs.tidy.entry t k d hk hmortal hd
    exact ⟨kd, hkd⟩
  · exact hs.immortal d hmortal

omit [DecidableEq E] in
/-- Syncing the dependents of a living tensor uses living tensors. -/
theorem syncDependentTensors_safe (fuel : ℕ) (hs : EntriesLive kernels mortal s) (ht : ∃ k, s t = some k) :
    syncDependentTensors (syncValues kernels fuel) t s ≠ .error .nullDereference := by
  obtain ⟨k, hk⟩ := ht
  have hfold : Safe s (k.dependentTensors.foldlM (fun s d => syncValues kernels fuel d s) s) := by
    refine Outcome.foldlM_of_forall (fun d hd s' hs' => ?_) (.refl s)
    obtain ⟨kd, hkd⟩ := hs.living hk hd
    obtain ⟨kd', hkd', -⟩ := hs'.evolved d kd hkd
    exact (syncValues_safe fuel (hs.registered.of_evolves hs') ⟨kd', hkd'⟩).mono (fun _ h => hs'.trans h) fun _ he => he
  rw [syncDependentTensors, State.get_eq_ok.mpr hk, ok_bind]
  cases hs₁ : k.dependentTensors.foldlM (fun s d => syncValues kernels fuel d s) s with
  | error e =>
    rw [hs₁] at hfold
    rintro h
    cases h
    exact hfold rfl
  | ok s₁ =>
    obtain ⟨k₁, hk₁, -⟩ := (Outcome.of_eq_ok hfold hs₁).evolved t k hk
    rw [ok_bind, State.get_eq_ok.mpr hk₁]
    intro h
    cases h

variable [Fintype T]

/-- Nothing is inserted into a tensor that waits to be computed, and none is destroyed; a mortal tensor is not assigned again
    with the same assignment or with `operator=` while it waits and no tensor waits for it. -/
def EntriesKept (kernels : Kernels T Coord V E) (mortal : T → Prop) (s : State T Coord V E) : Op T Coord V E → Prop
  | .insert t _ => ¬ Pending s t
  | .assign t e => mortal t → ∀ k, s t = some k → k.needsCompute = true → k.assignment = some e → ∃ d, Reads kernels s t d
  | .assignScalar t _ => mortal t → Pending s t → ∃ d, Reads kernels s t d
  | .destroy t => Pending s t → Referred kernels s t
  | _ => True

omit [Fintype T] [DecidableEq E] in
theorem evaluate_safe (fuel : ℕ) (hs : Registered kernels s) (ht : ∃ k, s t = some k) :
    Safe s (evaluate kernels (syncValues kernels fuel) t s) := by
  obtain ⟨k, hk⟩ := ht
  have hsync : ∀ s' k', Evolves s s' → s' t = some k' → ∀ u ∈ kernels.operandsOf k', ∀ s'', Evolves s' s'' →
      Safe s'' (syncValues kernels fuel u s'') := by
    intro s' k' hs' hk' u hu s'' hs''
    have hregistered := hs.of_evolves hs'
    obtain ⟨ku, hku⟩ := hregistered.living t k' u hk' hu
    obtain ⟨ku'', hku'', -⟩ := hs''.evolved u ku hku
    exact syncValues_safe fuel (hregistered.of_evolves hs'') ⟨ku'', hku''⟩
  have hcompute : ∀ s', Evolves s s' → Safe s' (compute kernels (syncValues kernels fuel) t s') := by
    intro s' hs'
    obtain ⟨k', hk', -⟩ := hs'.evolved t k hk
    exact compute_safe hk' (hsync s' k' hs' hk') fun u hu => (hs.of_evolves hs').living t k' u hk' hu
  refine Safe.bind (compile_safe hk) fun s₁ hs₁ => ?_
  obtain ⟨k₁, hk₁, -⟩ := hs₁.evolved t k hk
  rw [State.get_eq_ok.mpr hk₁, ok_bind]
  split_ifs
  · exact hcompute s₁ hs₁
  · exact Safe.bind (assemble_safe hk₁ (hsync s₁ k₁ hs₁ hk₁)) fun s₂ hs₂ => hcompute s₂ (hs₁.trans hs₂)

/-- No operation uses the content of a destroyed tensor. -/
theorem step_safe {fuel : ℕ} (hs : EntriesLive kernels mortal s) (op : Op T Coord V E) :
    step kernels fuel op s ≠ .error .nullDereference := by
  rw [step]
  split_ifs with hhandles
  · have hliving := fun s₁ hevolves => living_of_evolves hhandles (show Evolves s s₁ from hevolves)
    cases op with
    | insert t component =>
      have hsync := syncDependentTensors_safe fuel hs (hliving s (.refl s) t (List.mem_cons_self ..))
      cases hs₁ : syncDependentTensors (syncValues kernels fuel) t s with
      | error e => simpa [perform, insert, hs₁] using hsync
      | ok s₁ =>
        obtain ⟨k, hk⟩ := hliving s₁ (syncDependentTensors_spec hs.registered hs₁).1 t (List.mem_cons_self ..)
        have hinsert : Outcome (fun _ => True) (· ≠ Fault.nullDereference)
            (k.insertUnsynced component >>= fun k => .ok (s₁.set t { k with needsPack := true })) := by
          refine Outcome.bind ((k.insertUnsynced_outcome component).mono (fun _ h => h) ?_) fun _ _ => trivial
          rintro e rfl
          intro h
          cases h
        intro h
        rw [perform, insert, hs₁, ok_bind, State.get_eq_ok.mpr hk, ok_bind] at h
        rw [h] at hinsert
        exact hinsert rfl
    | pack t =>
      obtain ⟨k, hk⟩ := hliving s (.refl s) t (List.mem_cons_self ..)
      intro h
      have hpack := pack_safe hk
      rw [perform] at h
      rw [h] at hpack
      exact hpack rfl
    | assign t e =>
      have hsync := syncDependentTensors_safe fuel hs (hliving s (.refl s) t (List.mem_cons_self ..))
      cases hs₁ : syncDependentTensors (syncValues kernels fuel) t s with
      | error fault => simpa [perform, setAssignment, hs₁] using hsync
      | ok s₁ =>
        have hevolves := (syncDependentTensors_spec hs.registered hs₁).1
        obtain ⟨k, hk⟩ := hliving s₁ hevolves t (List.mem_cons_self ..)
        have hnew := fun u hu => hliving s₁ hevolves u (List.mem_cons_of_mem t hu)
        rw [perform, setAssignment_eq hs₁ (hs.registered.of_evolves hevolves) hk hnew]
        intro h
        cases h
    | assignScalar t e =>
      have hsync := syncDependentTensors_safe fuel hs (hliving s (.refl s) t (List.mem_cons_self ..))
      obtain ⟨k, hk⟩ := hliving s (.refl s) t (List.mem_cons_self ..)
      rw [perform, State.get_eq_ok.mpr hk, ok_bind]
      split_ifs with horder
      · intro h
        cases h
      · rw [ne_eq, not_not] at horder
        cases hs₁ : syncDependentTensors (syncValues kernels fuel) t s with
        | error fault => simpa [assignScalar, State.get_eq_ok.mpr hk, horder, hs₁] using hsync
        | ok s₁ =>
          have hevolves := (syncDependentTensors_spec hs.registered hs₁).1
          obtain ⟨k₁, hk₁⟩ := hliving s₁ hevolves t (List.mem_cons_self ..)
          have hnew := fun u hu => hliving s₁ hevolves u (List.mem_cons_of_mem t hu)
          rw [assignScalar_eq hk horder hs₁ hk₁ hnew]
          intro h
          cases h
    | evaluate t =>
      obtain ⟨k, hk⟩ := hliving s (.refl s) t (List.mem_cons_self ..)
      rw [perform, State.get_eq_ok.mpr hk, ok_bind]
      split_ifs
      · intro h
        cases h
      · intro h
        have hevaluate := evaluate_safe fuel hs.registered ⟨k, hk⟩
        rw [h] at hevaluate
        exact hevaluate rfl
    | read t =>
      intro h
      have hsync := syncValues_safe fuel hs.registered (hliving s (.refl s) t (List.mem_cons_self ..))
      rw [perform] at h
      rw [h] at hsync
      exact hsync rfl
    | destroy t =>
      intro h
      rw [perform] at h
      cases h
  · intro h
    cases h

omit [Fintype T] [DecidableEq E] in
theorem evaluate_between {fuel : ℕ} (hs₀ : Registered kernels s₀) (hs : Between kernels mortal s₀ A s) (t : T) :
    Outcome (Between kernels mortal s₀ A) (fun _ => True) (evaluate kernels (syncValues kernels fuel) t s) := by
  have hsync : ∀ A u s, Between kernels mortal s₀ A s →
      Outcome (Between kernels mortal s₀ A) (fun _ => True) (syncValues kernels fuel u s) :=
    fun A u s hs => syncValues_between hs₀ hs u
  refine Outcome.bind (compile_between hs t) fun s₁ hs₁ => ?_
  cases hk : s₁ t with
  | none => simp [State.get, hk]
  | some k =>
    rw [State.get_eq_ok.mpr hk, ok_bind]
    split_ifs
    · exact compute_between hs₀ hsync hs₁ t
    · exact Outcome.bind (assemble_between hsync hs₁ t) fun s₂ hs₂ => compute_between hs₀ hsync hs₂ t

omit [Fintype T] [DecidableEq E] in
theorem Tidy.set {k k' : Content T Coord V E} (hs : Tidy kernels mortal s) (hk : s t = some k) (hsame : k.SameAssignment k') :
    Tidy kernels mortal (s.set t k') where
  once u ku d hku hd := by
    obtain ⟨ku', hku', hsame', -, -⟩ := set_eq_some kernels hk hsame hku
    rw [hsame'.dependentTensors]
    exact hs.once u ku' d hku' hd
  entry u ku d hku hd hmem := by
    obtain ⟨ku', hku', hsame', -, -⟩ := set_eq_some kernels hk hsame hku
    rw [hsame'.dependentTensors] at hmem
    exact (hs.entry u ku' d hku' hd hmem).set hk hsame.assignment hsame.needsCompute

omit [Fintype T] [DecidableEq E] in
theorem Tidy.destroy (hs : Tidy kernels mortal s) (ht : ¬ Pending s t) : Tidy kernels mortal (Function.update s t none) where
  once u k d hk hd := hs.once u k d (update_eq_some hk).2 hd
  entry u k d hk hd hmem := by
    obtain ⟨kd, hkd, hneeds, hu⟩ := hs.entry u k d (update_eq_some hk).2 hd hmem
    have hdt : d ≠ t := by
      rintro rfl
      exact ht ⟨kd, hkd, hneeds⟩
    exact ⟨kd, by rw [Function.update_of_ne hdt, hkd], hneeds, hu⟩

theorem Tidy.step {fuel : ℕ} {op : Op T Coord V E} (hregistered : Registered kernels s) (hs : Tidy kernels mortal s)
    (hop : EntriesKept kernels mortal s op) (h : step kernels fuel op s = .ok s') : Tidy kernels mortal s' := by
  rw [Tensor.step] at h
  split_ifs at h with hhandles
  · cases op with
    | insert t component =>
      obtain ⟨s₁, hs₁, h⟩ := ok_of_bind h
      obtain ⟨k, hk, h⟩ := ok_of_bind h
      obtain ⟨k', hk', h⟩ := ok_of_bind h
      cases h
      exact (syncDependentTensors_tidy hregistered hs hs₁).1.set (State.get_eq_ok.mp hk)
        (Content.insertUnsynced_sameAssignment hk')
    | pack t => exact ((pack_between hs.between t).of_eq_ok h).tidy
    | assign t e =>
      obtain ⟨s₁, k, hs₁, hk, -, rfl⟩ := setAssignment_inv hregistered hhandles h
      obtain ⟨htidy, hread⟩ := syncDependentTensors_tidy hregistered hs hs₁
      refine htidy.assigned ⟨k, hk⟩ fun hmortal u hu => ?_
      obtain ⟨k', hk', hneeds, hu⟩ := hu
      cases hk.symm.trans hk'
      have hne : k.assignment ≠ some e := by
        -- Otherwise the tensor was computed when its dependents were synced.
        intro hsame
        obtain ⟨k₀, hk₀, hevolved⟩ := (syncDependentTensors_spec hregistered hs₁).1.exists_of_eq_some hk
        obtain ⟨d, hd⟩ := hop hmortal k₀ hk₀ (hevolved.needsCompute hneeds) (hevolved.assignment ▸ hsame)
        exact hread d hd ⟨k, hk, hneeds⟩
      rw [Content.droppedOperands, if_pos ⟨hne, hneeds⟩]
      exact hu
    | assignScalar t e =>
      obtain ⟨k, -, h⟩ := ok_of_bind h
      split_ifs at h
      · cases h
        exact hs
      · obtain ⟨s₁, k, hs₁, hk, -, rfl⟩ := assignScalar_inv hregistered hhandles h
        obtain ⟨htidy, hread⟩ := syncDependentTensors_tidy hregistered hs hs₁
        refine htidy.assigned ⟨k, hk⟩ fun hmortal u hu => ?_
        obtain ⟨k', hk', hneeds, -⟩ := hu
        have hevolves := (syncDependentTensors_spec hregistered hs₁).1
        obtain ⟨d, hd⟩ := hop hmortal (hevolves.pending ⟨k', hk', hneeds⟩)
        exact absurd ⟨k', hk', hneeds⟩ (hread d hd)
    | evaluate t =>
      obtain ⟨k, -, h⟩ := ok_of_bind h
      split_ifs at h
      · cases h
        exact hs
      · exact ((evaluate_between hregistered hs.between t).of_eq_ok h).tidy
    | read t => exact ((syncValues_between hregistered hs.between t).of_eq_ok h).tidy
    | destroy t =>
      simp only [perform] at h
      split_ifs at h with hreferred <;> cases h
      · exact hs
      · exact hs.destroy fun hp => hreferred (hop hp)
  · cases h
    exact hs

omit [Fintype T] [DecidableEq E] in
theorem EntriesKept.insertsSettled {op : Op T Coord V E} (h : EntriesKept kernels mortal s op) : InsertsSettled s op := by
  cases op with
  | insert t component => exact h
  | _ => trivial

theorem EntriesLive.step {fuel : ℕ} {op : Op T Coord V E} (hs : EntriesLive kernels mortal s)
    (hop : EntriesKept kernels mortal s op) (hmortal : ∀ t, op = .destroy t → mortal t)
    (h : step kernels fuel op s = .ok s') : EntriesLive kernels mortal s' := by
  refine ⟨hs.registered.step hop.insertsSettled h, hs.tidy.step hs.registered hop h, fun w hw => ?_⟩
  obtain ⟨k, hk⟩ := hs.immortal w hw
  cases step_cases hs.registered h with
  | evolves h =>
    obtain ⟨k', hk', -⟩ := h.evolved w k hk
    exact ⟨k', hk'⟩
  | @insert t component s₁ kt kt' hsync hkt hkt' =>
    obtain ⟨k', hk', -⟩ := (syncDependentTensors_spec hs.registered hsync).1.evolved w k hk
    by_cases hwt : w = t
    · exact ⟨_, by rw [hwt, State.set_self]⟩
    · exact ⟨k', by rw [State.set_of_ne _ _ hwt, hk']⟩
  | assign hsync hkt hnew =>
    obtain ⟨k', hk', -⟩ := (syncDependentTensors_spec hs.registered hsync).1.evolved w k hk
    exact ⟨_, by rw [Tensor.assigned, hk']; rfl⟩
  | assignScalar hsync hkt hnew =>
    obtain ⟨k', hk', -⟩ := (syncDependentTensors_spec hs.registered hsync).1.evolved w k hk
    exact ⟨_, by rw [Tensor.assigned, hk']; rfl⟩
  | @destroy t ht =>
    have hwt : w ≠ t := by
      rintro rfl
      exact hw (hmortal w rfl)
    exact ⟨k, by rw [Function.update_of_ne hwt, hk]⟩

/-! ### Runs -/

theorem run_live {fuel : ℕ} {ops : List (Op T Coord V E)} (hs : EntriesLive kernels mortal s)
    (hmortal : ∀ t, .destroy t ∈ ops → mortal t) (h : Meets kernels (EntriesKept kernels mortal) fuel ops s) :
    run kernels fuel ops s ≠ .error .nullDereference ∧
      ∀ before after s' shown, ops = before ++ after → run kernels fuel before s = .ok (s', shown) →
        EntriesLive kernels mortal s' := by
  induction ops generalizing s with
  | nil =>
    refine ⟨nofun, fun before after s' shown hops hrun => ?_⟩
    obtain ⟨rfl, -⟩ := List.append_eq_nil_iff.mp hops.symm
    cases hrun
    exact hs
  | cons op ops ih =>
    have hnext : ∀ s₁, step kernels fuel op s = .ok s₁ → EntriesLive kernels mortal s₁ := fun s₁ hs₁ =>
      hs.step h.1 (fun t ht => hmortal t (ht ▸ List.mem_cons_self ..)) hs₁
    have hrest := fun s₁ hs₁ => ih (hnext s₁ hs₁) (fun t ht => hmortal t (List.mem_cons_of_mem op ht)) (h.2 s₁ hs₁)
    refine ⟨fun hrun => ?_, fun before after s' shown hops hrun => ?_⟩
    · rw [run] at hrun
      cases hs₁ : step kernels fuel op s with
      | error e =>
        rw [hs₁] at hrun
        cases hrun
        exact step_safe hs op hs₁
      | ok s₁ =>
        rw [hs₁, ok_bind] at hrun
        cases hrun₁ : run kernels fuel ops s₁ with
        | error e =>
          rw [hrun₁] at hrun
          cases hrun
          exact (hrest s₁ hs₁).1 hrun₁
        | ok r =>
          rw [hrun₁] at hrun
          cases hrun
    · cases before with
      | nil =>
        cases hrun
        exact hs
      | cons op' before =>
        rw [List.cons_append, List.cons.injEq] at hops
        obtain ⟨rfl, hops⟩ := hops
        obtain ⟨s₁, hs₁, hrun⟩ := ok_of_bind hrun
        obtain ⟨r, hr, hrun⟩ := ok_of_bind hrun
        cases hrun
        exact (hrest s₁ hs₁).2 before after _ _ hops hr

omit [DecidableEq E] [Fintype T] in
theorem entriesLive_fresh (order : T → ℕ) (format : T → Layout Coord) :
    EntriesLive kernels mortal (fresh order format) where
  registered := registered_fresh order format
  tidy := by
    constructor
    · rintro u k d hk -
      cases hk
      exact Nat.zero_le 1
    · rintro u k d hk - hmem
      cases hk
      cases hmem
  immortal t _ := ⟨_, rfl⟩

/-- Only living dependents are touched, in any order of operations: a run never uses the content of a destroyed tensor, and
    in each of its states a living tensor's dependents can be synced and then wait no more, where nothing is inserted into or
    destroyed that waits to be computed, and no tensor that will be destroyed is assigned again while it waits, be it with
    the same assignment or with `operator=`. -/
theorem dependents_alive (kernels : Kernels T Coord V E) (order : T → ℕ) (format : T → Layout Coord)
    (ops : List (Op T Coord V E)) (fuel : ℕ)
    (h : Meets kernels (EntriesKept kernels fun t => .destroy t ∈ ops) fuel ops (fresh order format)) :
    run kernels fuel ops (fresh order format) ≠ .error .nullDereference ∧
      ∀ before after s shown, ops = before ++ after → run kernels fuel before (fresh order format) = .ok (s, shown) →
        ∀ t k depth, s t = some k →
          syncDependentTensors (syncValues kernels depth) t s ≠ .error .nullDereference ∧
            ∀ s', syncDependentTensors (syncValues kernels depth) t s = .ok s' →
              (∀ d ∈ k.dependentTensors, ¬ Pending s' d) ∧ ∀ d, ¬ Reads kernels s' t d := by
  obtain ⟨hsafe, hlive⟩ := run_live (entriesLive_fresh order format) (fun t => id) h
  refine ⟨hsafe, fun before after s shown hops hrun t k depth hk => ?_⟩
  have hs := hlive before after s shown hops hrun
  refine ⟨syncDependentTensors_safe depth hs ⟨k, hk⟩, fun s' hs' => ?_⟩
  obtain ⟨-, hread, k₀, k', hk₀, -, -, hdone⟩ := syncDependentTensors_spec hs.registered hs'
  cases hk.symm.trans hk₀
  exact ⟨hdone, hread⟩

/-- A tensor that is computed can be destroyed, and its operand can still be inserted into. -/
theorem dependents_alive_computed :
    run sums 2 [.assignScalar 0 (copy 1), .read 0, .destroy 0, .insert 1 ((), 1)]
      (fresh (fun _ => 0) (fun _ => sparse) : State (Fin 2) Unit ℤ (SumAssignment (Fin 2))) ≠ .error .nullDereference := by
  obtain ⟨s₁, s₂, s₃, hs₁, hs₂, hs₃, hdone, hdestroyed⟩ :
      ∃ s₁ s₂ s₃ : State (Fin 2) Unit ℤ (SumAssignment (Fin 2)),
        step sums 2 (.assignScalar 0 (copy 1)) (fresh (fun _ => 0) (fun _ => sparse)) = .ok s₁ ∧
        step sums 2 (.read 0) s₁ = .ok s₂ ∧ step sums 2 (.destroy 0) s₂ = .ok s₃ ∧
        ¬ Pending s₂ 0 ∧ ¬ Pending s₃ 1 := by
    refine ⟨_, _, _, rfl, rfl, rfl, ?_, ?_⟩
    · rintro ⟨k, hk, hneeds⟩
      cases hk
      cases hneeds
    · rintro ⟨k, hk, hneeds⟩
      cases hk
      cases hneeds
  refine (dependents_alive sums (fun _ => 0) (fun _ => sparse)
    [.assignScalar 0 (copy 1), .read 0, .destroy 0, .insert 1 ((), 1)] 2 ⟨fun _ => ?_, fun s h => ?_⟩).1
  · rintro ⟨k, hk, hneeds⟩
    cases hk
    cases hneeds
  · cases hs₁.symm.trans h
    refine ⟨trivial, fun s h => ?_⟩
    cases hs₂.symm.trans h
    refine ⟨fun hp => absurd hp hdone, fun s h => ?_⟩
    cases hs₃.symm.trans h
    exact ⟨hdestroyed, fun s h => trivial⟩

/-- A scalar that waits for another one is destroyed: inserting into that one uses its content. -/
theorem dependents_alive_not_waiting : ∃ bound, ∀ fuel, bound ≤ fuel →
    run sums fuel [.assignScalar 0 (copy 1), .destroy 0, .insert 1 ((), 1)]
      (fresh (fun _ => 0) (fun _ => sparse) : State (Fin 2) Unit ℤ (SumAssignment (Fin 2))) = .error .nullDereference := by
  refine ⟨1, fun fuel hfuel => ?_⟩
  obtain ⟨fuel, rfl⟩ := Nat.exists_eq_add_of_le' hfuel
  rfl

end Taco.Tensor
