import Taco.Tensor.Registration

/-! Evaluation touches only the tensors it reaches from the one that is synced. -/

namespace Taco.Tensor

open Relation (ReflTransGen TransGen)

variable {T Coord V E : Type} [DecidableEq Coord] [AddCommMonoid V] {kernels : Kernels T Coord V E}
  {s s' s₀ : State T Coord V E} {t u w : T}

/-- The tensor `w` is `u`, or `u` waits for it, directly or through others. -/
def Reaches (kernels : Kernels T Coord V E) (s : State T Coord V E) (u w : T) : Prop := ReflTransGen (Reads kernels s) w u

theorem not_reaches_of_reads (h : Acc (Reads kernels s) t) (hread : Reads kernels s u t) : ¬ Reaches kernels s u t := by
  intro hreach
  have hcycle : TransGen (Reads kernels s) t t := TransGen.tail' hreach hread
  have hirrefl : ∀ x, Acc (TransGen (Reads kernels s)) x → ¬ TransGen (Reads kernels s) x x := by
    intro x hx
    induction hx with
    | intro x _ ih => exact fun h => ih x h h
  exact hirrefl t h.transGen hcycle

theorem not_reaches_of_not (h : ¬ Reaches kernels s u w) (hread : Reads kernels s t u) : ¬ Reaches kernels s t w :=
  fun hreach => h (hreach.tail hread)

theorem ne_of_not_reaches (h : ¬ Reaches kernels s u w) : w ≠ u := by
  rintro rfl
  exact h .refl

variable [DecidableEq T]

/-- The part of evaluation evolves the tensors and leaves `w` as it is. -/
def Spares (s : State T Coord V E) (w : T) (x : Except Fault (State T Coord V E)) : Prop :=
  Outcome (fun s' => Evolves s s' ∧ s' w = s w) (fun _ => True) x

omit [DecidableEq Coord] [AddCommMonoid V] [DecidableEq T] in
theorem spares_of {x : Except Fault (State T Coord V E)} (h : ∀ s', x = .ok s' → Evolves s s' ∧ s' w = s w) :
    Spares s w x := by
  cases x with
  | ok s' => exact h s' rfl
  | error e => trivial

omit [DecidableEq Coord] [AddCommMonoid V] [DecidableEq T] in
theorem Spares.bind {x : Except Fault (State T Coord V E)} {f : State T Coord V E → Except Fault (State T Coord V E)}
    (h : Spares s w x) (hf : ∀ s', Evolves s s' → Spares s' w (f s')) : Spares s w (x >>= f) :=
  Outcome.bind h fun s' hs' => (hf s' hs'.1).mono (fun _ h' => ⟨hs'.1.trans h'.1, h'.2.trans hs'.2⟩) fun _ _ => trivial

omit [DecidableEq Coord] [AddCommMonoid V] in
theorem compile_spares (hw : w ≠ t) : Spares s w (compile t s) := by
  refine spares_of fun s' h => ⟨compile_evolves h, ?_⟩
  obtain ⟨k, -, h⟩ := ok_of_bind h
  split at h
  · cases h
  · split_ifs at h <;> cases h
    · exact State.set_of_ne s _ hw
    · rfl

theorem callAssemble_spares (hw : w ≠ t) : Spares s w (callAssemble kernels t s) := by
  refine spares_of fun s' h => ⟨callAssemble_evolves h, ?_⟩
  obtain ⟨k, -, h⟩ := ok_of_bind h
  split at h <;> cases h
  exact State.set_of_ne s _ hw

theorem callCompute_spares (hw : w ≠ t) : Spares s w (callCompute kernels t s) := by
  refine spares_of fun s' h => ⟨callCompute_evolves h, ?_⟩
  obtain ⟨k, -, h⟩ := ok_of_bind h
  split at h
  · cases h
  · split at h <;> cases h
    exact State.set_of_ne s _ hw

omit [DecidableEq Coord] [AddCommMonoid V] in
theorem removeDependentTensor_spares (ht : ¬ Pending s t) (hw : w ≠ u) : Spares s w (removeDependentTensor u t s) := by
  refine spares_of fun s' h => ⟨removeDependentTensor_evolves ht h, ?_⟩
  obtain ⟨k, -, h⟩ := ok_of_bind h
  cases h
  exact State.set_of_ne s _ hw

section Parts

variable {k : Content T Coord V E} {sync : T → State T Coord V E → Except Fault (State T Coord V E)} (hk : s t = some k)
  (hsync : ∀ u ∈ kernels.operandsOf k, ∀ s', Evolves s s' → Spares s' w (sync u s')) (hw : w ≠ t)

include hk hsync hw

theorem assemble_spares : Spares s w (assemble kernels sync t s) := by
  rw [assemble, State.get_eq_ok.mpr hk, ok_bind]
  split_ifs
  · trivial
  · refine Spares.bind ?_ fun s' _ => callAssemble_spares hw
    refine Outcome.foldlM_of_forall (fun u hu s' hs' => ?_) ⟨.refl s, rfl⟩
    exact (hsync u hu s' hs'.1).mono (fun _ h => ⟨hs'.1.trans h.1, h.2.trans hs'.2⟩) fun _ _ => trivial
  · exact ⟨.refl s, rfl⟩

theorem compute_spares (hoperands : ∀ u ∈ kernels.operandsOf k, w ≠ u) : Spares s w (compute kernels sync t s) := by
  rw [compute, State.get_eq_ok.mpr hk, ok_bind]
  split_ifs
  · trivial
  · obtain ⟨hstart, hdone⟩ := clear_evolves hk
    have hset : s.set t { k with needsCompute := false } w = s w := State.set_of_ne s _ hw
    have hfold : Spares (s.set t { k with needsCompute := false }) w
        ((kernels.operandsOf k).foldlM (fun s u => sync u s >>= removeDependentTensor u t)
          (s.set t { k with needsCompute := false })) := by
      refine Outcome.foldlM_of_forall (fun u hu s' hs' => ?_) ⟨.refl _, rfl⟩
      have hu' := (hsync u hu s' (hstart.trans hs'.1)).bind fun s'' hs'' =>
        removeDependentTensor_spares (fun hp => hdone (hs'.1.pending (hs''.pending hp))) (hoperands u hu)
      exact hu'.mono (fun _ h => ⟨hs'.1.trans h.1, h.2.trans hs'.2⟩) fun _ _ => trivial
    refine Outcome.mono (hfold.bind fun s' _ => ?_) (fun _ h => ⟨hstart.trans h.1, h.2.trans hset⟩) fun _ _ => trivial
    exact callCompute_spares hw
  · exact ⟨.refl s, rfl⟩

end Parts

/-- Syncing a tensor leaves those it does not reach as they are. -/
theorem syncValues_spares (fuel : ℕ) (hs : Evolves s₀ s) (hw : ¬ Reaches kernels s₀ t w) :
    Spares s w (syncValues kernels fuel t s) := by
  induction fuel generalizing s t with
  | zero => trivial
  | succ fuel ih =>
    change Spares s w (syncBody kernels (syncValues kernels fuel) t s)
    have hwt := ne_of_not_reaches hw
    cases hk : s t with
    | none => simp [syncBody, State.get, hk, Spares]
    | some k =>
      rw [syncBody, State.get_eq_ok.mpr hk, ok_bind]
      split_ifs with hpack hneeds
      · refine spares_of fun s' h => ⟨pack_evolves (s := s) (by rwa [pack, State.get_eq_ok.mpr hk]), ?_⟩
        obtain ⟨k', -, h⟩ := ok_of_bind h
        cases h
        exact State.set_of_ne s _ hwt
      · -- The operands are reached from the tensor.
        have hreads : ∀ s', Evolves s s' → ∀ k', s' t = some k' → ∀ u ∈ kernels.operandsOf k',
            ¬ Reaches kernels s₀ u w ∧ ∀ s'', Evolves s' s'' → Spares s'' w (syncValues kernels fuel u s'') := by
          intro s' hs' k' hk' u hu
          have hread : Reads kernels s u t := by
            obtain ⟨k₁, hk₁, hevolved⟩ := hs'.exists_of_eq_some hk'
            cases hk.symm.trans hk₁
            exact ⟨k, hk, hneeds, hevolved.operandsOf kernels ▸ hu⟩
          have hnot := not_reaches_of_not hw (hread.of_evolves hs)
          exact ⟨hnot, fun s'' hs'' => ih (hs.trans (hs'.trans hs'')) hnot⟩
        refine ((compile_spares hwt).bind fun s' hs' => ?_).bind fun s' hs' => ?_
        · obtain ⟨k', hk', -⟩ := hs'.evolved t k hk
          exact assemble_spares hk' (fun u hu => (hreads s' hs' k' hk' u hu).2) hwt
        · obtain ⟨k', hk', -⟩ := hs'.evolved t k hk
          exact compute_spares hk' (fun u hu => (hreads s' hs' k' hk' u hu).2) hwt fun u hu =>
            ne_of_not_reaches (hreads s' hs' k' hk' u hu).1
      · exact ⟨.refl s, rfl⟩

/-! ### What the computation of another tensor keeps -/

section Keeps

variable {I : State T Coord V E → Prop} {sync : T → State T Coord V E → Except Fault (State T Coord V E)}
  (hset : ∀ s k, I s → I (s.set u k)) (hremove : ∀ s w, I s → Outcome I (fun _ => True) (removeDependentTensor w u s))
  (hsync : ∀ s w, I s → Outcome I (fun _ => True) (sync w s))

include hset

omit [DecidableEq Coord] [AddCommMonoid V] in
theorem compile_keeps (hs : I s) : Outcome I (fun _ => True) (compile u s) := by
  cases hu : s u with
  | none => simp [compile, State.get, hu]
  | some k =>
    rw [compile, State.get_eq_ok.mpr hu, ok_bind]
    split
    · trivial
    · split_ifs
      · exact hset s _ hs
      · exact hs

include hsync

theorem assemble_keeps (hs : I s) : Outcome I (fun _ => True) (assemble kernels sync u s) := by
  cases hu : s u with
  | none => simp [assemble, State.get, hu]
  | some k =>
    rw [assemble, State.get_eq_ok.mpr hu, ok_bind]
    split_ifs
    · trivial
    · refine Outcome.bind (Outcome.foldlM_of_forall (fun w _ s' hs' => hsync s' w hs') hs) fun s' hs' => ?_
      cases hu' : s' u with
      | none => simp [callAssemble, State.get, hu']
      | some k' =>
        rw [callAssemble, State.get_eq_ok.mpr hu', ok_bind]
        split
        · trivial
        · exact hset s' _ hs'
    · exact hs

include hremove

/-- An invariant that changes of a content, removals of its entries and syncing keep is kept by its computation. -/
theorem computation_keeps (hs : I s) :
    Outcome I (fun _ => True) (compile u s >>= assemble kernels sync u >>= compute kernels sync u) := by
  refine Outcome.bind (Outcome.bind (compile_keeps hset hs) fun s' hs' => assemble_keeps hset hsync hs') fun s hs => ?_
  cases hu : s u with
  | none => simp [compute, State.get, hu]
  | some k =>
    rw [compute, State.get_eq_ok.mpr hu, ok_bind]
    split_ifs
    · trivial
    · refine Outcome.bind (Q := I) ?_ fun s' hs' => ?_
      · refine Outcome.foldlM_of_forall (fun w _ s' hs' => ?_) (hset s _ hs)
        exact Outcome.bind (hsync s' w hs') fun s'' hs'' => hremove s'' w hs''
      · cases hu' : s' u with
        | none => simp [callCompute, State.get, hu']
        | some k' =>
          rw [callCompute, State.get_eq_ok.mpr hu', ok_bind]
          split
          · trivial
          · split
            · trivial
            · exact hset s' _ hs'
    · exact hs

end Keeps

/-! ### What entries do not touch -/

section Holds

variable {Q : Content T Coord V E → Prop}

/-- The content of the tensor has the property. -/
def Holds (Q : Content T Coord V E → Prop) (t : T) (s : State T Coord V E) : Prop := ∃ k, s t = some k ∧ Q k

omit [DecidableEq Coord] [AddCommMonoid V] in
theorem Holds.set_of_ne (h : Holds Q t s) (hut : u ≠ t) (k : Content T Coord V E) : Holds Q t (s.set u k) := by
  obtain ⟨kt, hkt, hQ⟩ := h
  exact ⟨kt, by rw [State.set_of_ne s k (Ne.symm hut), hkt], hQ⟩

variable (hentries : ∀ k l, Q k → Q { k with dependentTensors := l })

include hentries

omit [DecidableEq Coord] [AddCommMonoid V] in
theorem Holds.removeDependentTensor (h : Holds Q t s) (u w : T) :
    Outcome (Holds Q t) (fun _ => True) (removeDependentTensor w u s) := by
  cases hw : s w with
  | none => simp [Tensor.removeDependentTensor, State.get, hw]
  | some k =>
    rw [Tensor.removeDependentTensor, State.get_eq_ok.mpr hw]
    by_cases hwt : w = t
    · subst hwt
      obtain ⟨kt, hkt, hQ⟩ := h
      cases hw.symm.trans hkt
      exact ⟨_, State.set_self _ _ _, hentries k _ hQ⟩
    · exact h.set_of_ne hwt _

/-- What packing and changes of the entries keep is kept by all syncing, for a tensor that waits for nothing. -/
theorem syncValues_holds (hpack : ∀ k k', Q k → k.pack = .ok k' → Q k') (hsettled : ∀ k, Q k → k.needsCompute = false)
    (fuel : ℕ) (h : Holds Q t s) (u : T) : Outcome (Holds Q t) (fun _ => True) (syncValues kernels fuel u s) := by
  induction fuel generalizing s u with
  | zero => trivial
  | succ fuel ih =>
    change Outcome _ _ (syncBody kernels (syncValues kernels fuel) u s)
    cases hu : s u with
    | none => simp [syncBody, State.get, hu]
    | some k =>
      rw [syncBody, State.get_eq_ok.mpr hu, ok_bind]
      split_ifs with hneedsPack hneeds
      · cases hk' : k.pack with
        | error e => trivial
        | ok k' =>
          by_cases hut : u = t
          · subst hut
            obtain ⟨kt, hkt, hQ⟩ := h
            cases hu.symm.trans hkt
            exact ⟨k', State.set_self _ _ _, hpack k k' hQ hk'⟩
          · exact h.set_of_ne hut k'
      · have hut : u ≠ t := by
          rintro rfl
          obtain ⟨kt, hkt, hQ⟩ := h
          cases hu.symm.trans hkt
          simp [hsettled k hQ] at hneeds
        exact computation_keeps (fun s k hs => hs.set_of_ne hut k) (fun s w hs => hs.removeDependentTensor hentries u w)
          (fun s w hs => ih hs w) h
      · exact h

theorem syncDependentTensors_holds (hpack : ∀ k k', Q k → k.pack = .ok k' → Q k')
    (hsettled : ∀ k, Q k → k.needsCompute = false) (fuel : ℕ) (h : Holds Q u s) (t : T) :
    Outcome (Holds Q u) (fun _ => True) (syncDependentTensors (syncValues kernels fuel) t s) := by
  cases ht : s t with
  | none => simp [syncDependentTensors, State.get, ht]
  | some k =>
    rw [syncDependentTensors, State.get_eq_ok.mpr ht, ok_bind]
    refine Outcome.bind (Q := Holds Q u) (Outcome.foldlM_of_forall (fun d _ s' hs' =>
      syncValues_holds hentries hpack hsettled fuel hs' d) h) fun s₁ hs₁ => ?_
    cases ht₁ : s₁ t with
    | none => simp [State.get, ht₁]
    | some k₁ =>
      rw [State.get_eq_ok.mpr ht₁]
      by_cases htu : t = u
      · subst htu
        obtain ⟨kt, hkt, hQ⟩ := hs₁
        cases ht₁.symm.trans hkt
        exact ⟨_, State.set_self _ _ _, hentries k₁ _ hQ⟩
      · exact hs₁.set_of_ne htu _

end Holds

/-! ### What is not reached does not matter -/

section Ignores

variable {k : Content T Coord V E} {f g : State T Coord V E → Except Fault (State T Coord V E)}
  {sync : T → State T Coord V E → Except Fault (State T Coord V E)}

/-- With another content of `w`, the part does to the other tensors what it does without. -/
def Ignores (w : T) (k : Content T Coord V E) (f : State T Coord V E → Except Fault (State T Coord V E))
    (s : State T Coord V E) : Prop :=
  f (s.set w k) = (f s).map fun s' => s'.set w k

omit [DecidableEq Coord] [AddCommMonoid V] in
theorem Ignores.bind (hf : Ignores w k f s) (hg : ∀ s', f s = .ok s' → Ignores w k g s') :
    Ignores w k (fun s => f s >>= g) s := by
  rw [Ignores] at hf ⊢
  rw [hf]
  cases hs' : f s with
  | error e => rfl
  | ok s' => exact hg s' hs'

omit [DecidableEq Coord] [AddCommMonoid V] in
theorem Ignores.foldlM {F : State T Coord V E → T → Except Fault (State T Coord V E)} {l : List T} {I : State T Coord V E → Prop}
    (hF : ∀ u ∈ l, ∀ s, I s → Ignores w k (fun s => F s u) s ∧ ∀ s', F s u = .ok s' → I s') (hs : I s) :
    Ignores w k (fun s => l.foldlM F s) s := by
  induction l generalizing s with
  | nil => rfl
  | cons u l ih =>
    obtain ⟨hu, hkeep⟩ := hF u (List.mem_cons_self ..) s hs
    simp only [List.foldlM_cons]
    exact hu.bind fun s' hs' => ih (fun v hv => hF v (List.mem_cons_of_mem u hv)) (hkeep s' hs')

omit [DecidableEq Coord] [AddCommMonoid V] in
theorem get_set_of_ne (hw : w ≠ t) (s : State T Coord V E) (k : Content T Coord V E) : (s.set w k).get t = s.get t := by
  rw [State.get, State.get, State.set_of_ne s k hw.symm]

omit [DecidableEq Coord] [AddCommMonoid V] in
theorem storage_set_of_ne (hw : w ≠ t) (s : State T Coord V E) (k : Content T Coord V E) :
    (s.set w k).storage t = s.storage t := by
  rw [State.storage, State.storage, State.set_of_ne s k hw.symm]

omit [DecidableEq Coord] [AddCommMonoid V] in
/-- A use of another tensor's content that is followed by a change of it. -/
theorem ignores_get (hw : w ≠ t) {change : Content T Coord V E → Except Fault (Content T Coord V E)} :
    Ignores w k (fun s => s.get t >>= fun kt => change kt >>= fun kt => .ok (s.set t kt)) s := by
  rw [Ignores, get_set_of_ne hw]
  cases s.get t with
  | error e => rfl
  | ok kt =>
    rw [ok_bind, ok_bind]
    cases change kt with
    | error e => rfl
    | ok kt' => exact congrArg Except.ok (Function.update_comm hw _ _ s)

omit [DecidableEq Coord] [AddCommMonoid V] in
theorem compile_ignores (hw : w ≠ t) : Ignores w k (compile t) s := by
  rw [Ignores, compile, compile, get_set_of_ne hw]
  cases s.get t with
  | error e => rfl
  | ok kt =>
    rw [ok_bind, ok_bind]
    cases kt.assignment with
    | none => rfl
    | some e =>
      dsimp only
      split_ifs
      · exact congrArg Except.ok (Function.update_comm hw _ _ s)
      · rfl

theorem packArguments_set {kt : Content T Coord V E} (hw : w ∉ kernels.operandsOf kt) :
    packArguments kernels (s.set w k) kt = packArguments kernels s kt := by
  refine List.map_congr_left fun u hu => storage_set_of_ne ?_ s k
  rintro rfl
  exact hw hu

theorem callAssemble_ignores (hw : w ≠ t) (hoperands : ∀ kt, s t = some kt → w ∉ kernels.operandsOf kt) :
    Ignores w k (callAssemble kernels t) s := by
  rw [Ignores, callAssemble, callAssemble, get_set_of_ne hw]
  cases ht : s t with
  | none => simp [State.get, ht, Except.map]
  | some kt =>
    rw [State.get_eq_ok.mpr ht, ok_bind, ok_bind, packArguments_set (hoperands kt ht)]
    cases kt.module with
    | none => rfl
    | some e => exact congrArg Except.ok (Function.update_comm hw _ _ s)

theorem callCompute_ignores (hw : w ≠ t) (hoperands : ∀ kt, s t = some kt → w ∉ kernels.operandsOf kt) :
    Ignores w k (callCompute kernels t) s := by
  rw [Ignores, callCompute, callCompute, get_set_of_ne hw]
  cases ht : s t with
  | none => simp [State.get, ht, Except.map]
  | some kt =>
    rw [State.get_eq_ok.mpr ht, ok_bind, ok_bind, packArguments_set (hoperands kt ht)]
    cases kt.module with
    | none => rfl
    | some e =>
      dsimp only
      cases kernels.compute e kt.storage (packArguments kernels s kt) with
      | none => rfl
      | some st => exact congrArg Except.ok (Function.update_comm hw _ _ s)

omit [DecidableEq Coord] [AddCommMonoid V] in
theorem removeDependentTensor_ignores (hwu : w ≠ u) : Ignores w k (removeDependentTensor u t) s := by
  rw [Ignores, removeDependentTensor, removeDependentTensor, get_set_of_ne hwu]
  cases s.get u with
  | error e => rfl
  | ok ku => exact congrArg Except.ok (Function.update_comm hwu _ _ s)

section Operands

variable {kt : Content T Coord V E} (ht : s t = some kt) (hw : w ≠ t) (hoperands : w ∉ kernels.operandsOf kt)
  (hsync : ∀ u ∈ kernels.operandsOf kt, ∀ s', Evolves s s' →
    Ignores w k (sync u) s' ∧ ∀ s'', sync u s' = .ok s'' → Evolves s' s'')

include ht hw hoperands hsync

theorem assemble_ignores : Ignores w k (assemble kernels sync t) s := by
  rw [Ignores, assemble, assemble, get_set_of_ne hw, State.get_eq_ok.mpr ht, ok_bind, ok_bind]
  split_ifs
  · rfl
  · have hfold : Ignores w k (fun s => (kernels.operandsOf kt).foldlM (fun s u => sync u s) s) s := by
      refine Ignores.foldlM (I := Evolves s) (fun u hu s' hs' => ?_) (.refl s)
      exact ⟨(hsync u hu s' hs').1, fun s'' hs'' => hs'.trans ((hsync u hu s' hs').2 s'' hs'')⟩
    refine hfold.bind fun s' hs' => callAssemble_ignores hw fun kt' ht' => ?_
    have hevolves : Evolves s s' := by
      refine Outcome.of_eq_ok (F := fun _ => True) (Outcome.foldlM_of_forall (fun u hu s₁ hs₁ => ?_) (.refl s)) hs'
      cases hu' : sync u s₁ with
      | error e => trivial
      | ok s₂ => exact hs₁.trans ((hsync u hu s₁ hs₁).2 s₂ hu')
    obtain ⟨kt₀, ht₀, hevolved⟩ := hevolves.exists_of_eq_some ht'
    cases ht.symm.trans ht₀
    rwa [hevolved.operandsOf kernels]
  · rfl

theorem compute_ignores : Ignores w k (compute kernels sync t) s := by
  rw [Ignores, compute, compute, get_set_of_ne hw, State.get_eq_ok.mpr ht, ok_bind, ok_bind]
  split_ifs
  · rfl
  · obtain ⟨hstart, hdone⟩ := clear_evolves ht
    have hkeep : ∀ u ∈ kernels.operandsOf kt, ∀ s', Evolves (s.set t { kt with needsCompute := false }) s' →
        ∀ s'', (sync u s' >>= removeDependentTensor u t) = .ok s'' → Evolves (s.set t { kt with needsCompute := false }) s'' := by
      intro u hu s' hs' s'' hs''
      obtain ⟨s₁, hs₁, hs''⟩ := ok_of_bind hs''
      have hevolves := hs'.trans ((hsync u hu s' (hstart.trans hs')).2 s₁ hs₁)
      exact hevolves.trans (removeDependentTensor_evolves (fun hp => hdone (hevolves.pending hp)) hs'')
    have hfold : Ignores w k (fun s => (kernels.operandsOf kt).foldlM
        (fun s u => sync u s >>= removeDependentTensor u t) s) (s.set t { kt with needsCompute := false }) := by
      refine Ignores.foldlM (I := Evolves (s.set t { kt with needsCompute := false })) (fun u hu s' hs' => ?_) (.refl _)
      have hwu : w ≠ u := by
        rintro rfl
        exact hoperands hu
      exact ⟨(hsync u hu s' (hstart.trans hs')).1.bind fun s'' _ => removeDependentTensor_ignores hwu, hkeep u hu s' hs'⟩
    have hcall := hfold.bind fun s' hs' => callCompute_ignores hw fun kt' ht' => by
      have hevolves : Evolves (s.set t { kt with needsCompute := false }) s' := by
        refine Outcome.of_eq_ok (F := fun _ => True) (Outcome.foldlM_of_forall (fun u hu s₁ hs₁ => ?_) (.refl _)) hs'
        cases hu' : sync u s₁ >>= removeDependentTensor u t with
        | error e => trivial
        | ok s₂ => exact hkeep u hu s₁ hs₁ s₂ hu'
      obtain ⟨kt₀, ht₀, hevolved⟩ := (hstart.trans hevolves).exists_of_eq_some ht'
      cases ht.symm.trans ht₀
      rwa [hevolved.operandsOf kernels]
    have hswap : (s.set w k).set t { kt with needsCompute := false } = (s.set t { kt with needsCompute := false }).set w k :=
      Function.update_comm hw _ _ s
    rw [hswap]
    exact hcall
  · rfl

end Operands

/-- Syncing a tensor does the same whatever the content of a tensor it does not reach. -/
theorem syncValues_ignores (fuel : ℕ) (hs : Evolves s₀ s) (hw : ¬ Reaches kernels s₀ t w) :
    Ignores w k (syncValues kernels fuel t) s := by
  induction fuel generalizing s t with
  | zero => rfl
  | succ fuel ih =>
    change Ignores w k (syncBody kernels (syncValues kernels fuel) t) s
    have hwt := ne_of_not_reaches hw
    rw [Ignores, syncBody, syncBody, get_set_of_ne hwt]
    cases hk : s t with
    | none => simp [State.get, hk, Except.map]
    | some kt =>
      rw [State.get_eq_ok.mpr hk, ok_bind, ok_bind]
      split_ifs with hpack hneeds
      · have hignores : Ignores w k (fun s => s.get t >>= fun kt => kt.pack >>= fun kt => .ok (s.set t kt)) s := ignores_get hwt
        rwa [Ignores, get_set_of_ne hwt, State.get_eq_ok.mpr hk, ok_bind, ok_bind] at hignores
      · -- The operands are reached from the tensor.
        have hreads : ∀ s', Evolves s s' → ∀ k', s' t = some k' → ∀ u ∈ kernels.operandsOf k', ¬ Reaches kernels s₀ u w := by
          intro s' hs' k' hk' u hu
          have hread : Reads kernels s u t := by
            obtain ⟨k₁, hk₁, hevolved⟩ := hs'.exists_of_eq_some hk'
            cases hk.symm.trans hk₁
            exact ⟨kt, hk, hneeds, hevolved.operandsOf kernels ▸ hu⟩
          exact not_reaches_of_not hw (hread.of_evolves hs)
        have hnot : ∀ s', Evolves s s' → ∀ k', s' t = some k' → w ∉ kernels.operandsOf k' := fun s' hs' k' hk' hmem =>
          ne_of_not_reaches (hreads s' hs' k' hk' w hmem) rfl
        have hsync : ∀ s', Evolves s s' → ∀ k', s' t = some k' → ∀ u ∈ kernels.operandsOf k', ∀ s'', Evolves s' s'' →
            Ignores w k (syncValues kernels fuel u) s'' ∧ ∀ s₃, syncValues kernels fuel u s'' = .ok s₃ → Evolves s'' s₃ :=
          fun s' hs' k' hk' u hu s'' hs'' => ⟨ih (hs.trans (hs'.trans hs'')) (hreads s' hs' k' hk' u hu),
            fun s₃ => syncValues_evolves⟩
        refine Ignores.bind (Ignores.bind (compile_ignores hwt) fun s' hs' => ?_) fun s' hs' => ?_
        · have hevolves := compile_evolves hs'
          obtain ⟨k', hk', -⟩ := hevolves.evolved t kt hk
          exact assemble_ignores hk' hwt (hnot s' hevolves k' hk') (hsync s' hevolves k' hk')
        · obtain ⟨s₁, hs₁, hs'⟩ := ok_of_bind hs'
          have hevolves := (compile_evolves hs₁).trans
            (assemble_evolves (fun t s s' h => syncValues_evolves h) hs')
          obtain ⟨k', hk', -⟩ := hevolves.evolved t kt hk
          exact compute_ignores hk' hwt (hnot s' hevolves k' hk') (hsync s' hevolves k' hk')
      · rfl

end Ignores

end Taco.Tensor
