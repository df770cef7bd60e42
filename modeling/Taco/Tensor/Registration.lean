import Taco.Tensor.Runs

/-! Tensors that wait to be computed are registered with their operands. -/

namespace Taco.Tensor

variable {T Coord V E : Type} [DecidableEq Coord] [AddCommMonoid V] {kernels : Kernels T Coord V E}
  {s s' : State T Coord V E} {t u : T}

/-- The operands of every assignment live; a tensor that waits to be computed has no components to pack, and each of its
    operands has an entry for it. -/
structure Registered (kernels : Kernels T Coord V E) (s : State T Coord V E) : Prop where
  living : ∀ d k u, s d = some k → u ∈ kernels.operandsOf k → ∃ k', s u = some k'
  packed : ∀ d k, s d = some k → k.needsCompute = true → k.needsPack = false
  entry : ∀ d k u k', s d = some k → k.needsCompute = true → u ∈ kernels.operandsOf k → s u = some k' →
    d ∈ k'.dependentTensors

/-- A tensor that waits to be computed reads the other one. -/
def Reads (kernels : Kernels T Coord V E) (s : State T Coord V E) (u d : T) : Prop :=
  ∃ k, s d = some k ∧ k.needsCompute = true ∧ u ∈ kernels.operandsOf k

/-- The storage of the tensor is up to date. -/
def Synced (s : State T Coord V E) (t : T) : Prop := ∀ k, s t = some k → k.needsPack = false ∧ k.needsCompute = false

theorem Content.Evolved.operandsOf (kernels : Kernels T Coord V E) {k k' : Content T Coord V E} (h : k.Evolved k') :
    kernels.operandsOf k' = kernels.operandsOf k := by
  rw [Kernels.operandsOf, Kernels.operandsOf, h.assignment]

omit [DecidableEq Coord] [AddCommMonoid V] in
theorem Synced.of_evolves (ht : Synced s t) (h : Evolves s s') : Synced s' t := by
  intro k' hk'
  obtain ⟨k, hk, hevolved⟩ := h.exists_of_eq_some hk'
  obtain ⟨hpack, hcompute⟩ := ht k hk
  have hpack' := mt hevolved.needsPack (by simp [hpack])
  have hcompute' := mt hevolved.needsCompute (by simp [hcompute])
  exact ⟨by simpa using hpack', by simpa using hcompute'⟩

omit [DecidableEq Coord] [AddCommMonoid V] in
theorem Synced.not_pending (ht : Synced s t) : ¬ Pending s t := by
  rintro ⟨k, hk, hneeds⟩
  simp [(ht k hk).2] at hneeds

theorem Reads.of_evolves {d : T} (h : Evolves s s') (hread : Reads kernels s' u d) : Reads kernels s u d := by
  obtain ⟨k', hk', hneeds, hu⟩ := hread
  obtain ⟨k, hk, hevolved⟩ := h.exists_of_eq_some hk'
  exact ⟨k, hk, hevolved.needsCompute hneeds, hevolved.operandsOf kernels ▸ hu⟩

/-- Evaluation keeps what is registered. -/
theorem Registered.of_evolves (hs : Registered kernels s) (h : Evolves s s') : Registered kernels s' where
  living d k' u hk' hu := by
    obtain ⟨k, hk, hevolved⟩ := h.exists_of_eq_some hk'
    obtain ⟨ku, hku⟩ := hs.living d k u hk (hevolved.operandsOf kernels ▸ hu)
    obtain ⟨ku', hku', -⟩ := h.evolved u ku hku
    exact ⟨ku', hku'⟩
  packed d k' hk' hneeds := by
    obtain ⟨k, hk, hevolved⟩ := h.exists_of_eq_some hk'
    have hpack := mt hevolved.needsPack (by simp [hs.packed d k hk (hevolved.needsCompute hneeds)])
    simpa using hpack
  entry d k' u ku' hk' hneeds hu hku' := by
    obtain ⟨k, hk, hevolved⟩ := h.exists_of_eq_some hk'
    obtain ⟨ku, hku, -⟩ := h.exists_of_eq_some hku'
    have hd := hs.entry d k u ku hk (hevolved.needsCompute hneeds) (hevolved.operandsOf kernels ▸ hu) hku
    exact h.entries u ku ku' d hku hku' hd ⟨k', hk', hneeds⟩

variable [DecidableEq T] {sync : T → State T Coord V E → Except Fault (State T Coord V E)}

/-! ### What is done after an operation -/

theorem syncBody_synced (hsync : ∀ t s s', sync t s = .ok s' → Evolves s s') (hs : Registered kernels s)
    (h : syncBody kernels sync t s = .ok s') : Synced s' t := by
  have hevolves := syncBody_evolves hsync h
  obtain ⟨k, hk, h⟩ := ok_of_bind h
  rw [State.get_eq_ok] at hk
  split_ifs at h with hpack hcompute
  · obtain ⟨k', hk', h⟩ := ok_of_bind h
    cases h
    intro k₁ hk₁
    rw [State.set_self] at hk₁
    cases hk₁
    have hneeds := hs.packed t k hk
    rw [Content.pack_frame hk']
    refine ⟨rfl, ?_⟩
    by_contra hne
    rw [Bool.not_eq_false] at hne
    simp [hneeds hne] at hpack
  · obtain ⟨s₂, -, h⟩ := ok_of_bind h
    have hdone := (compute_evolves hsync h).2
    intro k' hk'
    obtain ⟨k₁, hk₁, hevolved⟩ := hevolves.exists_of_eq_some hk'
    cases hk.symm.trans hk₁
    have hpack' := mt hevolved.needsPack hpack
    refine ⟨by simpa using hpack', ?_⟩
    by_contra hne
    exact hdone ⟨k', hk', by simpa using hne⟩
  · cases h
    intro k' hk'
    cases hk.symm.trans hk'
    exact ⟨by simpa using hpack, by simpa using hcompute⟩

/-- A tensor is up to date after it was synced. -/
theorem syncValues_synced {fuel : ℕ} (hs : Registered kernels s) (h : syncValues kernels fuel t s = .ok s') :
    Synced s' t := by
  cases fuel with
  | zero => cases h
  | succ fuel => exact syncBody_synced (fun _ _ _ => syncValues_evolves) hs h

/-- What `syncDependentTensors` leaves: no tensor that waits to be computed reads this one. -/
theorem syncDependentTensors_spec {fuel : ℕ} (hs : Registered kernels s)
    (h : syncDependentTensors (syncValues kernels fuel) t s = .ok s') :
    Evolves s s' ∧ (∀ d, ¬ Reads kernels s' t d) ∧
      ∃ k k', s t = some k ∧ s' t = some k' ∧ k'.dependentTensors = [] ∧ ∀ d ∈ k.dependentTensors, ¬ Pending s' d := by
  obtain ⟨k, hk, h⟩ := ok_of_bind h
  obtain ⟨s₁, hs₁, h⟩ := ok_of_bind h
  obtain ⟨k₁, hk₁, h⟩ := ok_of_bind h
  rw [State.get_eq_ok] at hk hk₁
  cases h
  have hfold : Outcome (fun s' => Evolves s s' ∧ ∀ d ∈ k.dependentTensors, ¬ Pending s' d) (fun _ => True)
      (k.dependentTensors.foldlM (fun s d => syncValues kernels fuel d s) s) := by
    refine Outcome.foldlM (fun before s' => Evolves s s' ∧ ∀ d ∈ before, ¬ Pending s' d) ?_ ⟨.refl s, by simp⟩
    rintro before d after s₂ - ⟨hevolves, hdone⟩
    cases hd : syncValues kernels fuel d s₂ with
    | error e => trivial
    | ok s₃ =>
      have h₃ := syncValues_evolves hd
      refine ⟨hevolves.trans h₃, fun d' hd' => ?_⟩
      rcases List.mem_append.mp hd' with hd' | hd'
      · exact fun hp => hdone d' hd' (h₃.pending hp)
      · rw [List.mem_singleton.mp hd']
        exact (syncValues_synced (hs.of_evolves hevolves) hd).not_pending
  obtain ⟨hevolves, hdone⟩ := hfold.of_eq_ok hs₁
  have hpending : ∀ d, Pending (s₁.set t { k₁ with dependentTensors := [] }) d → Pending s₁ d := by
    intro d hd
    refine hd.of_set hk₁ ?_
    exact id
  have hclear : Evolves s₁ (s₁.set t { k₁ with dependentTensors := [] }) := by
    refine Evolves.set hk₁ ⟨rfl, rfl, rfl, id, id, id, List.nil_subperm⟩ fun d hd hp => ?_
    obtain ⟨k₂, hk₂, hevolved⟩ := hevolves.evolved t k hk
    cases hk₁.symm.trans hk₂
    exact absurd (hpending d hp) (hdone d (hevolved.dependentTensors.subset hd))
  have hall := hevolves.trans hclear
  refine ⟨hall, ?_, k, _, hk, State.set_self _ _ _, rfl, fun d hd hp => hdone d hd (hpending d hp)⟩
  -- A reader of this tensor was registered with it.
  intro d hread
  obtain ⟨k', hk', hneeds, hu⟩ := hread
  obtain ⟨kd, hkd, hevolved⟩ := hall.exists_of_eq_some hk'
  have hentry := hs.entry d kd t k hkd (hevolved.needsCompute hneeds) (hevolved.operandsOf kernels ▸ hu) hk
  exact hdone d hentry (hpending d ⟨k', hk', hneeds⟩)

omit [DecidableEq Coord] [AddCommMonoid V] in
/-- What an insertion leaves, once the dependents are synced. -/
theorem insert_eq {component : Coord × V} {s₁ : State T Coord V E} {k : Content T Coord V E}
    (hsync : syncDependentTensors sync t s = .ok s₁) (hk : s₁ t = some k) (hfull : k.Full) :
    insert sync t component s = .ok (s₁.set t { k with
      coordinateBuffer := k.coordinateBuffer ++ [component]
      coordinateBufferUsed := k.coordinateBufferUsed + 1
      needsPack := true }) := by
  have hget : s₁.get t = .ok k := State.get_eq_ok.mpr hk
  rw [insert, hsync, ok_bind, hget, ok_bind, Content.insertUnsynced_of_full hfull, ok_bind]

/-! ### Entries of dependents -/

/-- A change of the entries of some tensors. -/
def relink (f : List T → List T) (us : List T) (s : State T Coord V E) : State T Coord V E :=
  fun u => (s u).map fun k => if u ∈ us then { k with dependentTensors := f k.dependentTensors } else k

omit [DecidableEq Coord] [AddCommMonoid V] in
theorem relink_eq_some {f : List T → List T} {us : List T} {k' : Content T Coord V E} :
    relink f us s u = some k' ↔
      ∃ k, s u = some k ∧ k' = { k with dependentTensors := if u ∈ us then f k.dependentTensors else k.dependentTensors } := by
  rw [relink, Option.map_eq_some_iff]
  refine exists_congr fun k => and_congr_right fun _ => ?_
  split_ifs <;> exact eq_comm

omit [DecidableEq Coord] [AddCommMonoid V] in
theorem relink_nil (f : List T → List T) (s : State T Coord V E) : relink f [] s = s := by
  funext u
  simp [relink]

omit [DecidableEq Coord] [AddCommMonoid V] in
/-- The entries of distinct living tensors are changed one after the other. -/
theorem foldlM_relink {f : List T → List T} {us : List T} (hus : us.Nodup) (hliving : ∀ u ∈ us, ∃ k, s u = some k) :
    us.foldlM (fun s u => s.get u >>= fun k => .ok (s.set u { k with dependentTensors := f k.dependentTensors })) s =
      .ok (relink f us s) := by
  induction us generalizing s with
  | nil =>
    rw [relink_nil]
    rfl
  | cons u us ih =>
    obtain ⟨k, hk⟩ := hliving u (List.mem_cons_self ..)
    rw [List.nodup_cons] at hus
    have hget : s.get u = .ok k := State.get_eq_ok.mpr hk
    rw [List.foldlM_cons, hget, ok_bind, ok_bind, ih hus.2]
    · congr 1
      funext w
      by_cases hwu : w = u
      · subst hwu
        simp [relink, hk, hus.1]
      · simp [relink, hwu]
    · intro w hw
      have hwu : w ≠ u := fun h => hus.1 (h ▸ hw)
      rw [State.set_of_ne s _ hwu]
      exact hliving w (List.mem_cons_of_mem u hw)

variable [DecidableEq E]

/-- The operands a tensor is no longer registered with when `e` is assigned to it. -/
def Content.droppedOperands (kernels : Kernels T Coord V E) (k : Content T Coord V E) (e : E) : List T :=
  if k.assignment ≠ some e ∧ k.needsCompute = true then kernels.operandsOf k else []

/-- The entries of a tensor after another one was removed from them or added to them. -/
def relinked (t : T) (old new : List T) (u : T) (entries : List T) : List T :=
  let entries := if u ∈ old then removeEntry t entries else entries
  if u ∈ new then entries ++ [t] else entries

/-- The tensors after an assignment: `t` is dropped from the operands `old` and registered with those of `e`. -/
def assigned (kernels : Kernels T Coord V E) (t : T) (e : E) (refersToSelf : Bool) (old : List T)
    (s : State T Coord V E) : State T Coord V E := fun u =>
  (s u).map fun k =>
    { if u = t then k.assign e refersToSelf else k with
      dependentTensors := relinked t old (kernels.operands e) u k.dependentTensors }

theorem dropComputation_eq {e : E} {k : Content T Coord V E} (hk : s t = some k)
    (hold : ∀ u ∈ k.droppedOperands kernels e, ∃ k, s u = some k) :
    dropComputation kernels t e s = .ok (relink (removeEntry t) (k.droppedOperands kernels e) s) := by
  have hget : s.get t = .ok k := State.get_eq_ok.mpr hk
  rw [dropComputation, hget, ok_bind]
  rw [Content.droppedOperands] at hold ⊢
  split_ifs at hold ⊢ with hdrop
  · have hnodup : (kernels.operandsOf k).Nodup := by
      rw [Kernels.operandsOf]
      cases k.assignment with
      | none => exact List.nodup_nil
      | some e => exact kernels.nodup_operands e
    exact foldlM_relink hnodup hold
  · exact foldlM_relink List.nodup_nil hold

theorem register_eq {e : E} {refersToSelf : Bool} {k : Content T Coord V E} (hk : s t = some k) (old : List T)
    (hnew : ∀ u ∈ kernels.operands e, ∃ k, s u = some k) :
    register kernels t e refersToSelf (relink (removeEntry t) old s) = .ok (assigned kernels t e refersToSelf old s) := by
  have hliving : ∀ u ∈ kernels.operands e, ∃ k, relink (removeEntry t) old s u = some k := by
    intro u hu
    obtain ⟨ku, hku⟩ := hnew u hu
    exact ⟨_, relink_eq_some.mpr ⟨ku, hku, rfl⟩⟩
  have hfold := foldlM_relink (f := fun entries => entries ++ [t]) (kernels.nodup_operands e) hliving
  have hget : (relink (fun entries => entries ++ [t]) (kernels.operands e) (relink (removeEntry t) old s)).get t =
      .ok { k with dependentTensors := relinked t old (kernels.operands e) t k.dependentTensors } := by
    rw [State.get_eq_ok, relink_eq_some]
    exact ⟨_, relink_eq_some.mpr ⟨k, hk, rfl⟩, rfl⟩
  have hadd : (kernels.operands e).foldlM (fun s u => addDependentTensor u t s) (relink (removeEntry t) old s) =
      .ok (relink (fun entries => entries ++ [t]) (kernels.operands e) (relink (removeEntry t) old s)) := hfold
  rw [register, hadd, ok_bind, hget, ok_bind]
  congr 1
  funext u
  by_cases hut : u = t
  · subst hut
    simp [assigned, hk, Content.assign]
  · rw [State.set_of_ne _ _ hut, assigned, relink, relink, Option.map_map]
    refine Option.map_congr fun k _ => ?_
    simp only [Function.comp, relinked, hut, if_false]
    split_ifs <;> rfl

/-- What `setAssignment` leaves, once the dependents are synced. -/
theorem setAssignment_eq {e : E} {s₁ : State T Coord V E} {k : Content T Coord V E}
    (hsync : syncDependentTensors sync t s = .ok s₁) (hs₁ : Registered kernels s₁) (hk : s₁ t = some k)
    (hnew : ∀ u ∈ kernels.operands e, ∃ k, s₁ u = some k) : setAssignment kernels sync t e s =
      .ok (assigned kernels t e (!kernels.compound e) (k.droppedOperands kernels e) s₁) := by
  have hold : ∀ u ∈ k.droppedOperands kernels e, ∃ k, s₁ u = some k := by
    intro u hu
    rw [Content.droppedOperands] at hu
    split_ifs at hu
    · exact hs₁.living t k u hk hu
    · cases hu
  rw [setAssignment, hsync, ok_bind, dropComputation_eq hk hold, ok_bind, register_eq hk _ hnew]

/-- What `operator=` leaves, once the dependents are synced. -/
theorem assignScalar_eq {e : E} {s₁ : State T Coord V E} {k k₁ : Content T Coord V E} (hk : s t = some k)
    (horder : k.order = 0) (hsync : syncDependentTensors sync t s = .ok s₁) (hk₁ : s₁ t = some k₁)
    (hnew : ∀ u ∈ kernels.operands e, ∃ k, s₁ u = some k) :
    assignScalar kernels sync t e s = .ok (assigned kernels t e false [] s₁) := by
  have hget : s.get t = .ok k := State.get_eq_ok.mpr hk
  have hregister : register kernels t e false (relink (removeEntry t) [] s₁) = .ok (assigned kernels t e false [] s₁) :=
    register_eq hk₁ [] hnew
  rw [relink_nil] at hregister
  rw [assignScalar, hget, ok_bind, if_neg (not_not.mpr horder), hsync, ok_bind, hregister]

section Assigned

variable {e : E} {refersToSelf : Bool} {old : List T}

theorem assigned_eq_some {k' : Content T Coord V E} (h : assigned kernels t e refersToSelf old s u = some k') :
    ∃ k, s u = some k ∧ k' = { if u = t then k.assign e refersToSelf else k with
      dependentTensors := relinked t old (kernels.operands e) u k.dependentTensors } := by
  rw [assigned, Option.map_eq_some_iff] at h
  obtain ⟨k, hk, rfl⟩ := h
  exact ⟨k, hk, rfl⟩

theorem assigned_self {k : Content T Coord V E} (hk : s t = some k) : assigned kernels t e refersToSelf old s t =
    some { k.assign e refersToSelf with
      dependentTensors := relinked t old (kernels.operands e) t k.dependentTensors } := by
  rw [assigned, hk, Option.map_some, if_pos rfl]

/-- The entries of the other tensors stay. -/
theorem mem_relinked_of_ne {d : T} (hd : d ≠ t) {new entries : List T} :
    d ∈ relinked t old new u entries ↔ d ∈ entries := by
  have hremove : d ∈ removeEntry t entries ↔ d ∈ entries :=
    ⟨mem_of_mem_removeEntry, mem_removeEntry_of_ne hd⟩
  simp only [relinked]
  split_ifs <;> simp [hremove, hd]

theorem mem_relinked_self {new entries : List T} (hu : u ∈ new) : t ∈ relinked t old new u entries := by
  simp [relinked, hu]

/-- An assignment keeps what is registered, and registers the tensor. -/
theorem Registered.assigned (hs : Registered kernels s) (hnew : ∀ u ∈ kernels.operands e, ∃ k, s u = some k) :
    Registered kernels (assigned kernels t e refersToSelf old s) where
  living d k' u hk' hu := by
    obtain ⟨k, hk, rfl⟩ := assigned_eq_some hk'
    have hliving : ∃ ku, s u = some ku := by
      by_cases hdt : d = t
      · rw [if_pos hdt] at hu
        exact hnew u hu
      · rw [if_neg hdt] at hu
        exact hs.living d k u hk hu
    obtain ⟨ku, hku⟩ := hliving
    exact ⟨_, by rw [Tensor.assigned, hku]; rfl⟩
  packed d k' hk' hneeds := by
    obtain ⟨k, hk, rfl⟩ := assigned_eq_some hk'
    by_cases hdt : d = t
    · simp [hdt, Content.assign]
    · simp only [hdt, if_false] at hneeds ⊢
      exact hs.packed d k hk hneeds
  entry d k' u ku' hk' hneeds hu hku' := by
    obtain ⟨k, hk, rfl⟩ := assigned_eq_some hk'
    obtain ⟨ku, hku, rfl⟩ := assigned_eq_some hku'
    by_cases hdt : d = t
    · rw [if_pos hdt] at hu
      rw [hdt]
      exact mem_relinked_self hu
    · simp only [hdt, if_false] at hneeds hu
      exact (mem_relinked_of_ne hdt).mpr (hs.entry d k u ku hk hneeds hu hku)

/-- A tensor that no waiting tensor reads may wait itself, unless it reads itself. -/
theorem acyclic_assigned (hs : ∀ d, Acc (Reads kernels s) d) (hread : ∀ d, ¬ Reads kernels s t d)
    (ht : t ∉ kernels.operands e) (d : T) : Acc (Reads kernels (assigned kernels t e refersToSelf old s)) d := by
  have hother : ∀ d, d ≠ t → Acc (Reads kernels (assigned kernels t e refersToSelf old s)) d := by
    intro d hd
    induction hs d with
    | intro d _ ih =>
      refine Acc.intro d fun u hu => ?_
      obtain ⟨k', hk', hneeds, hmem⟩ := hu
      obtain ⟨k, hk, rfl⟩ := assigned_eq_some hk'
      simp only [hd, if_false] at hneeds hmem
      have hud : Reads kernels s u d := ⟨k, hk, hneeds, hmem⟩
      refine ih u hud ?_
      rintro rfl
      exact hread d hud
  by_cases hd : d = t
  · subst hd
    refine Acc.intro d fun u hu => hother u ?_
    obtain ⟨k', hk', -, hmem⟩ := hu
    obtain ⟨k, -, rfl⟩ := assigned_eq_some hk'
    rw [if_pos rfl] at hmem
    rintro rfl
    exact ht hmem
  · exact hother d hd

end Assigned

/-! ### What a step does -/

omit [DecidableEq E] in
theorem evaluate_evolves {fuel : ℕ} (h : evaluate kernels (syncValues kernels fuel) t s = .ok s') : Evolves s s' := by
  have hsync : ∀ t s s', syncValues kernels fuel t s = .ok s' → Evolves s s' := fun t s s' h => syncValues_evolves h
  obtain ⟨s₁, hs₁, h⟩ := ok_of_bind h
  obtain ⟨k, -, h⟩ := ok_of_bind h
  refine (compile_evolves hs₁).trans ?_
  split_ifs at h
  · exact (compute_evolves hsync h).1
  · obtain ⟨s₂, hs₂, h⟩ := ok_of_bind h
    exact (assemble_evolves hsync hs₂).trans (compute_evolves hsync h).1

variable [Fintype T]

/-- What the tensors can be after a step; insertions and assignments first sync the dependents of their tensor. -/
inductive Stepped (kernels : Kernels T Coord V E) (fuel : ℕ) (s : State T Coord V E) :
    Op T Coord V E → State T Coord V E → Prop
  | evolves {op : Op T Coord V E} {s' : State T Coord V E} (h : Evolves s s') : Stepped kernels fuel s op s'
  | insert {t : T} {component : Coord × V} {s₁ : State T Coord V E} {k k' : Content T Coord V E}
      (hsync : syncDependentTensors (syncValues kernels fuel) t s = .ok s₁) (hk : s₁ t = some k) (hk' : k.insertUnsynced component = .ok k') :
      Stepped kernels fuel s (.insert t component) (s₁.set t { k' with needsPack := true })
  | assign {t : T} {e : E} {s₁ : State T Coord V E} {k : Content T Coord V E}
      (hsync : syncDependentTensors (syncValues kernels fuel) t s = .ok s₁) (hk : s₁ t = some k)
      (hnew : ∀ u ∈ kernels.operands e, ∃ k, s₁ u = some k) : Stepped kernels fuel s (.assign t e)
        (assigned kernels t e (!kernels.compound e) (k.droppedOperands kernels e) s₁)
  | assignScalar {t : T} {e : E} {s₁ : State T Coord V E} {k : Content T Coord V E}
      (hsync : syncDependentTensors (syncValues kernels fuel) t s = .ok s₁) (hk : s₁ t = some k)
      (hnew : ∀ u ∈ kernels.operands e, ∃ k, s₁ u = some k) :
      Stepped kernels fuel s (.assignScalar t e) (assigned kernels t e false [] s₁)
  | destroy {t : T} (h : ¬ Referred kernels s t) : Stepped kernels fuel s (.destroy t) (Function.update s t none)

omit [DecidableEq Coord] [AddCommMonoid V] [DecidableEq T] [DecidableEq E] [Fintype T] in
/-- Tensors with handles still live after evaluation. -/
theorem living_of_evolves {l : List T} (hl : ∀ u ∈ l, (s u).isSome) (h : Evolves s s') : ∀ u ∈ l, ∃ k, s' u = some k := by
  intro u hu
  obtain ⟨k, hk⟩ := Option.isSome_iff_exists.mp (hl u hu)
  obtain ⟨k', hk', -⟩ := h.evolved u k hk
  exact ⟨k', hk'⟩

omit [Fintype T] in
/-- What an assignment does: it syncs the dependents, and then registers the tensor. -/
theorem setAssignment_inv {fuel : ℕ} {e : E} (hs : Registered kernels s)
    (hhandles : ∀ u ∈ t :: kernels.operands e, (s u).isSome)
    (h : setAssignment kernels (syncValues kernels fuel) t e s = .ok s') :
    ∃ s₁ k, syncDependentTensors (syncValues kernels fuel) t s = .ok s₁ ∧ s₁ t = some k ∧
      (∀ u ∈ kernels.operands e, ∃ k, s₁ u = some k) ∧
      s' = assigned kernels t e (!kernels.compound e) (k.droppedOperands kernels e) s₁ := by
  obtain ⟨s₂, hs₂, -⟩ := ok_of_bind h
  obtain ⟨s₁, hs₁, -⟩ := ok_of_bind hs₂
  have hevolves := (syncDependentTensors_spec hs hs₁).1
  have hliving := living_of_evolves hhandles hevolves
  obtain ⟨k, hk⟩ := hliving t (List.mem_cons_self ..)
  have hnew := fun u hu => hliving u (List.mem_cons_of_mem t hu)
  have heq := setAssignment_eq hs₁ (hs.of_evolves hevolves) hk hnew
  cases heq.symm.trans h
  exact ⟨s₁, k, hs₁, hk, hnew, rfl⟩

omit [Fintype T] in
theorem assignScalar_inv {fuel : ℕ} {e : E} (hs : Registered kernels s)
    (hhandles : ∀ u ∈ t :: kernels.operands e, (s u).isSome)
    (h : assignScalar kernels (syncValues kernels fuel) t e s = .ok s') :
    ∃ s₁ k, syncDependentTensors (syncValues kernels fuel) t s = .ok s₁ ∧ s₁ t = some k ∧
      (∀ u ∈ kernels.operands e, ∃ k, s₁ u = some k) ∧ s' = assigned kernels t e false [] s₁ := by
  obtain ⟨k, hk⟩ := Option.isSome_iff_exists.mp (hhandles t (List.mem_cons_self ..))
  by_cases horder : k.order = 0
  · have h' := h
    rw [assignScalar, State.get_eq_ok.mpr hk, ok_bind, if_neg (not_not.mpr horder)] at h'
    obtain ⟨s₁, hs₁, -⟩ := ok_of_bind h'
    have hliving := living_of_evolves hhandles (syncDependentTensors_spec hs hs₁).1
    obtain ⟨k₁, hk₁⟩ := hliving t (List.mem_cons_self ..)
    have hnew := fun u hu => hliving u (List.mem_cons_of_mem t hu)
    have heq := assignScalar_eq hk horder hs₁ hk₁ hnew
    cases heq.symm.trans h
    exact ⟨s₁, k₁, hs₁, hk₁, hnew, rfl⟩
  · rw [assignScalar, State.get_eq_ok.mpr hk, ok_bind, if_pos horder] at h
    cases h

theorem step_cases {fuel : ℕ} {op : Op T Coord V E} (hs : Registered kernels s) (h : step kernels fuel op s = .ok s') :
    Stepped kernels fuel s op s' := by
  rw [step] at h
  split_ifs at h with hhandles
  · have hliving := fun s₁ hevolves => living_of_evolves hhandles (show Evolves s s₁ from hevolves)
    cases op with
    | insert t component =>
      obtain ⟨s₁, hs₁, h⟩ := ok_of_bind h
      obtain ⟨k, hk, h⟩ := ok_of_bind h
      obtain ⟨k', hk', h⟩ := ok_of_bind h
      cases h
      exact .insert hs₁ (State.get_eq_ok.mp hk) hk'
    | pack t => exact .evolves (pack_evolves h)
    | assign t e =>
      obtain ⟨s₁, k, hs₁, hk, hnew, rfl⟩ := setAssignment_inv hs hhandles h
      exact .assign hs₁ hk hnew
    | assignScalar t e =>
      obtain ⟨k, hk, h⟩ := ok_of_bind h
      split_ifs at h with horder
      · cases h
        exact .evolves (.refl s)
      · obtain ⟨s₁, k₁, hs₁, hk₁, hnew, rfl⟩ := assignScalar_inv hs hhandles h
        exact .assignScalar hs₁ hk₁ hnew
    | evaluate t =>
      obtain ⟨k, -, h⟩ := ok_of_bind h
      split_ifs at h
      · cases h
        exact .evolves (.refl s)
      · exact .evolves (evaluate_evolves h)
    | read t => exact .evolves (syncValues_evolves h)
    | destroy t =>
      simp only [perform] at h
      split_ifs at h with hreferred <;> cases h
      · exact .evolves (.refl s)
      · exact .destroy hreferred
  · cases h
    exact .evolves (.refl s)

/-! ### What a step keeps -/

omit [DecidableEq Coord] [AddCommMonoid V] [DecidableEq T] [DecidableEq E] [Fintype T] in
/-- The assignment, its pending computation and the entries of two contents are the same. -/
structure Content.SameAssignment (k k' : Content T Coord V E) : Prop where
  assignment : k'.assignment = k.assignment
  needsCompute : k'.needsCompute = k.needsCompute
  dependentTensors : k'.dependentTensors = k.dependentTensors

omit [DecidableEq Coord] [AddCommMonoid V] [DecidableEq T] [DecidableEq E] [Fintype T] in
theorem Content.insertUnsynced_sameAssignment {k k' : Content T Coord V E} {component : Coord × V}
    (h : k.insertUnsynced component = .ok k') : k.SameAssignment { k' with needsPack := true } := by
  rw [insertUnsynced_frame h]
  exact ⟨rfl, rfl, rfl⟩

omit [DecidableEq E] [Fintype T] in
theorem set_eq_some (kernels : Kernels T Coord V E) {k k' : Content T Coord V E} (hk : s t = some k) (hsame : k.SameAssignment k') {d : T}
    {kd : Content T Coord V E} (hkd : s.set t k' d = some kd) : ∃ kd', s d = some kd' ∧ kd'.SameAssignment kd ∧
      kernels.operandsOf kd = kernels.operandsOf kd' ∧ (d ≠ t → kd = kd') := by
  by_cases hdt : d = t
  · subst hdt
    rw [State.set_self] at hkd
    cases hkd
    exact ⟨k, hk, hsame, by rw [Kernels.operandsOf, Kernels.operandsOf, hsame.assignment], fun h => absurd rfl h⟩
  · rw [State.set_of_ne s k' hdt] at hkd
    exact ⟨kd, hkd, ⟨rfl, rfl, rfl⟩, rfl, fun _ => rfl⟩

omit [DecidableEq E] [Fintype T] in
theorem Reads.of_set {k k' : Content T Coord V E} (hk : s t = some k) (hsame : k.SameAssignment k') {d : T}
    (h : Reads kernels (s.set t k') u d) : Reads kernels s u d := by
  obtain ⟨kd, hkd, hneeds, hu⟩ := h
  obtain ⟨kd', hkd', hsame', hoperands, -⟩ := set_eq_some kernels hk hsame hkd
  exact ⟨kd', hkd', hsame'.needsCompute ▸ hneeds, hoperands ▸ hu⟩

omit [DecidableEq E] [Fintype T] in
theorem Registered.set {k k' : Content T Coord V E} (hs : Registered kernels s) (hk : s t = some k)
    (hsame : k.SameAssignment k') (hpending : ¬ Pending s t) : Registered kernels (s.set t k') where
  living d kd u hkd hu := by
    obtain ⟨kd', hkd', -, hoperands, -⟩ := set_eq_some kernels hk hsame hkd
    obtain ⟨ku, hku⟩ := hs.living d kd' u hkd' (hoperands ▸ hu)
    by_cases hut : u = t
    · exact ⟨k', by rw [hut, State.set_self]⟩
    · exact ⟨ku, by rw [State.set_of_ne s k' hut, hku]⟩
  packed d kd hkd hneeds := by
    obtain ⟨kd', hkd', hsame', -, heq⟩ := set_eq_some kernels hk hsame hkd
    have hneeds' := hsame'.needsCompute ▸ hneeds
    have hdt : d ≠ t := by
      rintro rfl
      exact hpending ⟨kd', hkd', hneeds'⟩
    rw [heq hdt]
    exact hs.packed d kd' hkd' hneeds'
  entry d kd u ku hkd hneeds hu hku := by
    obtain ⟨kd', hkd', hsame', hoperands, -⟩ := set_eq_some kernels hk hsame hkd
    obtain ⟨ku', hku', hsameu, -⟩ := set_eq_some kernels hk hsame hku
    rw [hsameu.dependentTensors]
    exact hs.entry d kd' u ku' hkd' (hsame'.needsCompute ▸ hneeds) (hoperands ▸ hu) hku'

omit [DecidableEq Coord] [AddCommMonoid V] [DecidableEq E] [Fintype T] in
theorem update_eq_some {k : Content T Coord V E} {d : T} (h : Function.update s t none d = some k) : d ≠ t ∧ s d = some k := by
  have hdt : d ≠ t := by
    rintro rfl
    rw [Function.update_self] at h
    cases h
  rw [Function.update_of_ne hdt] at h
  exact ⟨hdt, h⟩

omit [DecidableEq E] [Fintype T] in
theorem Registered.destroy (hs : Registered kernels s) (ht : ¬ Referred kernels s t) :
    Registered kernels (Function.update s t none) := by
  refine ⟨fun d k u hk hu => ?_, fun d k hk => hs.packed d k (update_eq_some hk).2, fun d k u ku hk hneeds hu hku => ?_⟩
  · have hdk := (update_eq_some hk).2
    obtain ⟨ku, hku⟩ := hs.living d k u hdk hu
    have hut : u ≠ t := by
      rintro rfl
      refine ht ⟨d, ?_⟩
      rw [hdk, Option.any_some, decide_eq_true hu, Bool.true_or]
    exact ⟨ku, by rw [Function.update_of_ne hut, hku]⟩
  · exact hs.entry d k u ku (update_eq_some hk).2 hneeds hu (update_eq_some hku).2

/-- No component is inserted into a tensor that waits to be computed. -/
def InsertsSettled (s : State T Coord V E) : Op T Coord V E → Prop
  | .insert t _ => ¬ Pending s t
  | _ => True

theorem Registered.step {fuel : ℕ} {op : Op T Coord V E} (hs : Registered kernels s) (hop : InsertsSettled s op)
    (h : step kernels fuel op s = .ok s') : Registered kernels s' := by
  cases step_cases hs h with
  | evolves h => exact hs.of_evolves h
  | insert hsync hk hk' =>
    have hevolves := (syncDependentTensors_spec hs hsync).1
    have hsame := Content.insertUnsynced_sameAssignment hk'
    exact (hs.of_evolves hevolves).set hk hsame fun hp => hop (hevolves.pending hp)
  | assign hsync hk hnew => exact (hs.of_evolves (syncDependentTensors_spec hs hsync).1).assigned hnew
  | assignScalar hsync hk hnew => exact (hs.of_evolves (syncDependentTensors_spec hs hsync).1).assigned hnew
  | destroy ht => exact hs.destroy ht

/-- No assignment reads the tensor it defines. -/
def ReadsOthers (kernels : Kernels T Coord V E) : Op T Coord V E → Prop
  | .assign t e => t ∉ kernels.operands e
  | .assignScalar t e => t ∉ kernels.operands e
  | _ => True

/-- Where no assignment reads the tensor it defines, no tensor comes to wait for itself. -/
theorem acyclic_step {fuel : ℕ} {op : Op T Coord V E} (hs : Registered kernels s) (hacc : ∀ d, Acc (Reads kernels s) d)
    (hop : ReadsOthers kernels op) (h : step kernels fuel op s = .ok s') (d : T) : Acc (Reads kernels s') d := by
  have hof : ∀ s₁ : State T Coord V E, (∀ u d, Reads kernels s₁ u d → Reads kernels s u d) → ∀ d, Acc (Reads kernels s₁) d :=
    fun s₁ hsub d => Subrelation.accessible (fun {u d} hread => hsub u d hread) (hacc d)
  cases step_cases hs h with
  | evolves h => exact hof s' (fun u d => Reads.of_evolves h) d
  | insert hsync hk hk' =>
    have hevolves := (syncDependentTensors_spec hs hsync).1
    exact hof _ (fun u d hread =>
      Reads.of_evolves hevolves (hread.of_set hk (Content.insertUnsynced_sameAssignment hk'))) d
  | assign hsync hk hnew =>
    obtain ⟨hevolves, hread, -⟩ := syncDependentTensors_spec hs hsync
    exact acyclic_assigned (hof _ fun u d => Reads.of_evolves hevolves) hread hop d
  | assignScalar hsync hk hnew =>
    obtain ⟨hevolves, hread, -⟩ := syncDependentTensors_spec hs hsync
    exact acyclic_assigned (hof _ fun u d => Reads.of_evolves hevolves) hread hop d
  | destroy ht =>
    refine hof _ (fun u d hread => ?_) d
    obtain ⟨k, hk, hneeds, hu⟩ := hread
    exact ⟨k, (update_eq_some hk).2, hneeds, hu⟩

/-! ### New tensors -/

omit [DecidableEq T] [DecidableEq E] [Fintype T] in
theorem registered_fresh (order : T → ℕ) (format : T → Layout Coord) : Registered kernels (fresh order format) where
  living d k u _ _ := ⟨_, rfl⟩
  packed d k hk hneeds := by
    cases hk
    cases hneeds
  entry d k u k' hk hneeds := by
    cases hk
    cases hneeds

omit [DecidableEq T] [DecidableEq E] [Fintype T] in
theorem acyclic_fresh (order : T → ℕ) (format : T → Layout Coord) (d : T) : Acc (Reads kernels (fresh order format)) d := by
  refine Acc.intro d fun u hu => ?_
  obtain ⟨k, hk, hneeds, -⟩ := hu
  cases hk
  cases hneeds

end Taco.Tensor
