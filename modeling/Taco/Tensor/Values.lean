import Taco.Tensor.Frame

/-! The values tensors stand for, whether they are computed yet or not. -/

namespace Taco.Tensor

variable {T Coord V E : Type} [DecidableEq Coord] [AddCommMonoid V] {kernels : Kernels T Coord V E}
  {values : T → Coord → V} {s s' : State T Coord V E} {t u : T}

/-- The content of a tensor stands for its values: they are in the storage and in the buffer if packing is due, they are
    the right-hand side of the assignment if a computation is due, and else they are in the storage. -/
structure Agrees (kernels : Kernels T Coord V E) (values : T → Coord → V) (t : T) (k : Content T Coord V E) : Prop where
  buffer : k.coordinateBuffer.length ≤ k.coordinateBufferUsed
  full : k.needsPack = true → k.Full
  contents : k.needsCompute = false → k.contents = values t
  waiting : k.needsCompute = true → ∃ e, k.assignment = some e ∧ kernels.compound e = false ∧
    values t = kernels.value e ((kernels.operands e).map values)
  compiled : k.needsCompile = false → k.module = k.assignment
  assembled : k.needsAssemble = k.needsCompute

/-- All tensors live and stand for the values, and what waits is registered and comes to an end. -/
structure Coherent (kernels : Kernels T Coord V E) (values : T → Coord → V) (s : State T Coord V E) : Prop where
  living : ∀ t, ∃ k, s t = some k
  registered : Registered kernels s
  acyclic : ∀ d, Acc (Reads kernels s) d
  agrees : ∀ t k, s t = some k → Agrees kernels values t k

theorem Coherent.of_evolves (hs : Coherent kernels values s) (h : Evolves s s')
    (hagrees : ∀ t k, s' t = some k → Agrees kernels values t k) : Coherent kernels values s' where
  living t := by
    obtain ⟨k, hk⟩ := hs.living t
    obtain ⟨k', hk', -⟩ := h.evolved t k hk
    exact ⟨k', hk'⟩
  registered := hs.registered.of_evolves h
  acyclic d := Subrelation.accessible (fun {_ _} hread => Reads.of_evolves h hread) (hs.acyclic d)
  agrees := hagrees

/-- A synced tensor has its values in the storage. -/
theorem Coherent.read_of_synced (hs : Coherent kernels values s) (ht : Synced s t) :
    (s.storage t).read = values t := by
  obtain ⟨k, hk⟩ := hs.living t
  obtain ⟨hpack, hcompute⟩ := ht k hk
  rw [← (hs.agrees t k hk).contents hcompute, State.storage, hk, Content.contents, hpack]
  rfl

variable [DecidableEq T]

/-- One content changes and still stands for its values. -/
theorem Coherent.set {k k' : Content T Coord V E} (hs : Coherent kernels values s) (hk : s t = some k) (h : k.Evolved k')
    (hentries : ∀ d ∈ k.dependentTensors, Pending (s.set t k') d → d ∈ k'.dependentTensors)
    (hagrees : Agrees kernels values t k') : Coherent kernels values (s.set t k') := by
  refine hs.of_evolves (Evolves.set hk h hentries) fun u ku hku => ?_
  by_cases hut : u = t
  · subst hut
    rw [State.set_self] at hku
    cases hku
    exact hagrees
  · rw [State.set_of_ne s k' hut] at hku
    exact hs.agrees u ku hku

/-! ### Syncing -/

/-- What a synced tensor's syncing does. -/
theorem syncValues_of_synced (fuel : ℕ) (ht : Synced s t) (hliving : ∃ k, s t = some k) :
    Outcome (fun s' => s' = s) (· = .outOfDepth) (syncValues kernels fuel t s) := by
  cases fuel with
  | zero => rfl
  | succ fuel =>
    obtain ⟨k, hk⟩ := hliving
    obtain ⟨hpack, hcompute⟩ := ht k hk
    change Outcome _ _ (syncBody kernels (syncValues kernels fuel) t s)
    simp [syncBody, State.get_eq_ok.mpr hk, hpack, hcompute]

theorem pack_coherent (hs : Coherent kernels values s) {k : Content T Coord V E} (hk : s t = some k) :
    Outcome (Coherent kernels values) (· = .outOfDepth) (k.pack >>= fun k' => .ok (s.set t k')) := by
  have hagrees := hs.agrees t k hk
  obtain ⟨k', hk', hread, hbuffer⟩ := Content.exists_pack hagrees.full hagrees.buffer
  rw [hk', ok_bind]
  have hframe := Content.pack_frame hk'
  have hneeds : k'.needsPack = false := by rw [hframe]
  refine hs.set hk ?_ ?_ ?_
  · rw [hframe]
    exact ⟨rfl, rfl, rfl, Bool.noConfusion, id, id, .refl _⟩
  · rw [hframe]
    exact fun d hd _ => hd
  · refine ⟨hbuffer, by simp [hneeds], fun hcompute => ?_, ?_, ?_, ?_⟩
    · rw [← hagrees.contents (by rw [hframe] at hcompute; exact hcompute), ← hread, Content.contents, hneeds]
      rfl
    · rw [hframe]
      exact hagrees.waiting
    · rw [hframe]
      exact hagrees.compiled
    · rw [hframe]
      exact hagrees.assembled

theorem compile_coherent (hs : Coherent kernels values s) {k : Content T Coord V E} {e : E} (hk : s t = some k)
    (hassign : k.assignment = some e) : ∃ s', compile t s = .ok s' ∧ Coherent kernels values s' ∧
      s' t = some { k with needsCompile := false, module := some e } := by
  have hagrees := hs.agrees t k hk
  have hcompile : compile t s =
      .ok (if k.needsCompile then s.set t { k with needsCompile := false, module := some e } else s) := by
    simp only [compile, State.get_eq_ok.mpr hk, ok_bind, hassign]
  rw [hcompile]
  by_cases hneeds : k.needsCompile = true
  · rw [if_pos hneeds]
    refine ⟨_, rfl, hs.set hk ⟨rfl, rfl, rfl, id, Bool.noConfusion, id, .refl _⟩ (fun d hd _ => hd) ?_, State.set_self _ _ _⟩
    exact ⟨hagrees.buffer, hagrees.full, hagrees.contents, hagrees.waiting, fun _ => hassign.symm, hagrees.assembled⟩
  · rw [if_neg hneeds]
    rw [Bool.not_eq_true] at hneeds
    have hmodule : k.module = some e := (hagrees.compiled hneeds).trans hassign
    exact ⟨s, rfl, hs, by rw [hk, ← hneeds, ← hmodule]⟩

/-- Two states that differ in entries of dependents only. -/
def SameButEntries (s s' : State T Coord V E) : Prop :=
  ∀ w k', s' w = some k' → ∃ k, s w = some k ∧ k' = { k with dependentTensors := k'.dependentTensors }

omit [DecidableEq T] in
theorem Agrees.of_entries {k k' : Content T Coord V E} (h : Agrees kernels values t k)
    (hsame : k' = { k with dependentTensors := k'.dependentTensors }) : Agrees kernels values t k' := by
  rw [hsame]
  exact ⟨h.buffer, h.full, h.contents, h.waiting, h.compiled, h.assembled⟩

omit [DecidableEq Coord] [AddCommMonoid V] [DecidableEq T] in
theorem SameButEntries.storage (h : SameButEntries s s') (halive : ∀ w, s' w = none → s w = none) (u : T) :
    s'.storage u = s.storage u := by
  cases hu : s' u with
  | none => rw [State.storage, State.storage, hu, halive u hu]
  | some k' =>
    obtain ⟨k, hk, hsame⟩ := h u k' hu
    rw [State.storage, State.storage, hu, hk, hsame]

section Computation

variable {fuel : ℕ} (hsync : ∀ u s, Coherent kernels values s →
  Outcome (Coherent kernels values) (· = .outOfDepth) (syncValues kernels fuel u s))

include hsync in
/-- The operands of a tensor are synced, and the tensor is left alone. -/
theorem syncOperands (hs : Coherent kernels values s) {k : Content T Coord V E} (hk : s t = some k)
    (hcompute : k.needsCompute = true) :
    Outcome (fun s' => Coherent kernels values s' ∧ Evolves s s' ∧ s' t = s t ∧ ∀ u ∈ kernels.operandsOf k, Synced s' u)
      (· = .outOfDepth) ((kernels.operandsOf k).foldlM (fun s u => syncValues kernels fuel u s) s) := by
  refine Outcome.foldlM (fun before s' =>
    Coherent kernels values s' ∧ Evolves s s' ∧ s' t = s t ∧ ∀ u ∈ before, Synced s' u) ?_ ⟨hs, .refl s, rfl, by simp⟩
  rintro before u after s' hl ⟨hs', hevolves, ht, hsynced⟩
  have hu : u ∈ kernels.operandsOf k := by simp [hl]
  have hspares := syncValues_spares fuel hevolves (not_reaches_of_reads (hs.acyclic t) ⟨k, hk, hcompute, hu⟩)
  have hcoherent := hsync u s' hs'
  cases hs'' : syncValues kernels fuel u s' with
  | error e => rwa [hs''] at hcoherent
  | ok s'' =>
    rw [hs''] at hcoherent
    obtain ⟨hevolves', ht'⟩ := hspares.of_eq_ok hs''
    refine ⟨hcoherent, hevolves.trans hevolves', ht'.trans ht, fun w hw => ?_⟩
    rcases List.mem_append.mp hw with hw | hw
    · exact (hsynced w hw).of_evolves hevolves'
    · rw [List.mem_singleton.mp hw]
      exact syncValues_synced hs'.registered hs''

omit hsync in
/-- Once the operands are synced, a tensor that starts to be computed loses its entries, and nothing else happens. -/
theorem unlinkOperands (kernels : Kernels T Coord V E) (fuel : ℕ) {l : List T} (ht : ¬ Pending s t)
    (hl : ∀ u ∈ l, Synced s u ∧ ∃ ku, s u = some ku) :
    Outcome (fun s' => Evolves s s' ∧ SameButEntries s s') (· = .outOfDepth)
      (l.foldlM (fun s u => syncValues kernels fuel u s >>= removeDependentTensor u t) s) := by
  refine Outcome.foldlM_of_forall (fun u hu s' hs' => ?_) ⟨.refl s, fun w k' hk' => ⟨k', hk', rfl⟩⟩
  obtain ⟨hevolves, hsame⟩ := hs'
  obtain ⟨hsynced, ku, hku⟩ := hl u hu
  obtain ⟨ku', hku', -⟩ := hevolves.evolved u ku hku
  refine (syncValues_of_synced fuel (hsynced.of_evolves hevolves) ⟨ku', hku'⟩).bind ?_
  rintro s'' rfl
  have hremove : removeDependentTensor u t s'' =
      .ok (s''.set u { ku' with dependentTensors := removeEntry t ku'.dependentTensors }) := by
    rw [removeDependentTensor, State.get_eq_ok.mpr hku', ok_bind]
  have hnot : ¬ Pending s'' t := fun hp => ht (hevolves.pending hp)
  rw [hremove]
  refine ⟨hevolves.trans (removeDependentTensor_evolves hnot hremove), fun w k' hk' => ?_⟩
  by_cases hwu : w = u
  · subst hwu
    rw [State.set_self] at hk'
    cases hk'
    obtain ⟨k, hk, hsame'⟩ := hsame w ku' hku'
    exact ⟨k, hk, by rw [hsame']⟩
  · rw [State.set_of_ne _ _ hwu] at hk'
    exact hsame w k' hk'

omit hsync in
/-- The compute function runs on what the assemble function left and on the synced operands. -/
theorem computeAssembled (hs : Coherent kernels values s) {k : Content T Coord V E} {e : E} (hk : s t = some k)
    (hassign : k.assignment = some e) (hmodule : k.module = some e) (hcompile : k.needsCompile = false)
    (hcompute : k.needsCompute = true) (hsynced : ∀ u ∈ kernels.operands e, Synced s u) :
    Outcome (Coherent kernels values) (· = .outOfDepth) (compute kernels (syncValues kernels fuel) t (s.set t { k with
      storage := kernels.assemble e ((kernels.operands e).map s.storage)
      needsAssemble := false })) := by
  have hoperands : kernels.operandsOf k = kernels.operands e := by rw [Kernels.operandsOf, hassign]; rfl
  obtain ⟨e', hassign', hplain, hvalue⟩ := (hs.agrees t k hk).waiting hcompute
  cases hassign.symm.trans hassign'
  have hpack := hs.registered.packed t k hk hcompute
  have hself : ∀ u ∈ kernels.operands e, u ≠ t := by
    rintro u hu rfl
    exact not_reaches_of_reads (hs.acyclic u) ⟨k, hk, hcompute, hoperands ▸ hu⟩ .refl
  -- The state in which the operands are synced once more.
  obtain ⟨k₄, hk₄⟩ : ∃ k₄ : Content T Coord V E, k₄ = { k with
    storage := kernels.assemble e ((kernels.operands e).map s.storage)
    needsAssemble := false
    needsCompute := false } := ⟨_, rfl⟩
  have hstart : Evolves s (s.set t k₄) := by
    rw [hk₄]
    exact Evolves.set hk ⟨rfl, rfl, rfl, id, id, Bool.noConfusion, .refl _⟩ fun d hd _ => hd
  have hdone : ¬ Pending (s.set t k₄) t := by
    rintro ⟨k', hk', hneeds⟩
    rw [State.set_self, hk₄] at hk'
    cases hk'
    cases hneeds
  have hunlink := unlinkOperands kernels fuel (l := kernels.operands e) hdone fun u hu =>
    ⟨(hsynced u hu).of_evolves hstart, by rw [State.set_of_ne s k₄ (hself u hu)]; exact hs.living u⟩
  have hdo : compute kernels (syncValues kernels fuel) t (s.set t { k with
      storage := kernels.assemble e ((kernels.operands e).map s.storage)
      needsAssemble := false }) = (kernels.operands e).foldlM
        (fun s u => syncValues kernels fuel u s >>= removeDependentTensor u t) (s.set t k₄) >>= callCompute kernels t := by
    rw [compute, State.get_eq_ok.mpr (State.set_self _ _ _), ok_bind, if_neg (by simp [hcompile]), if_pos hcompute, hk₄,
      ← hoperands]
    congr 2
    exact Function.update_idem ..
  rw [hdo]
  refine hunlink.bind ?_
  rintro s₅ ⟨hevolves₅, hsame₅⟩
  obtain ⟨k₅, hk₅, -⟩ := hevolves₅.evolved t k₄ (State.set_self s t k₄)
  obtain ⟨k₄', hk₄', hsame⟩ := hsame₅ t k₅ hk₅
  rw [State.set_self] at hk₄'
  cases hk₄'
  -- The function is given the storages its operands had when the result was assembled.
  have hargs : (kernels.operands e).map s₅.storage = (kernels.operands e).map s.storage := by
    refine List.map_congr_left fun u hu => ?_
    rw [hsame₅.storage ?_ u]
    · rw [State.storage, State.storage, State.set_of_ne s k₄ (hself u hu)]
    · intro w hw
      by_contra hne
      obtain ⟨kw, hkw⟩ := Option.ne_none_iff_exists'.mp hne
      obtain ⟨kw', hkw', -⟩ := hevolves₅.evolved w kw hkw
      cases hw.symm.trans hkw'
  obtain ⟨st, hst, hread⟩ := kernels.computes e ((kernels.operands e).map s.storage) hplain (List.length_map ..)
  have hcall : callCompute kernels t s₅ = .ok (s₅.set t { k₅ with storage := st }) := by
    have hpacked : packArguments kernels s₅ k₅ = (kernels.operands e).map s.storage := by
      rw [packArguments, ← hargs, hsame, hk₄, ← hoperands]
      rfl
    have hmodule₅ : k₅.module = some e := by rw [hsame, hk₄]; exact hmodule
    have hstorage₅ : k₅.storage = kernels.assemble e ((kernels.operands e).map s.storage) := by rw [hsame, hk₄]
    simp only [callCompute, State.get_eq_ok.mpr hk₅, ok_bind, hmodule₅, hpacked, hstorage₅, hst]
  have hevolves := (hstart.trans hevolves₅).trans (callCompute_evolves hcall)
  rw [hcall]
  refine hs.of_evolves hevolves fun w kw hkw => ?_
  by_cases hwt : w = t
  · subst hwt
    rw [State.set_self] at hkw
    cases hkw
    have hvalues : st.read = values w := by
      rw [hread, hvalue, List.map_map]
      congr 1
      exact List.map_congr_left fun u hu => hs.read_of_synced (hsynced u hu)
    rw [hsame, hk₄]
    refine ⟨(hs.agrees w k hk).buffer, fun h => by simp [hpack] at h, fun _ => ?_, Bool.noConfusion, fun _ => hmodule.trans hassign.symm, rfl⟩
    rw [Content.contents, ← hvalues]
    simp [hpack]
  · rw [State.set_of_ne _ _ hwt] at hkw
    obtain ⟨kw', hkw', hsamew⟩ := hsame₅ w kw hkw
    rw [State.set_of_ne s k₄ hwt] at hkw'
    exact (hs.agrees w kw' hkw').of_entries hsamew

include hsync in
/-- A compiled tensor that waits to be computed is computed from the values of its operands. -/
theorem computeWaiting (hs : Coherent kernels values s) {k : Content T Coord V E} (hk : s t = some k)
    (hcompile : k.needsCompile = false) (hcompute : k.needsCompute = true) :
    Outcome (Coherent kernels values) (· = .outOfDepth)
      (assemble kernels (syncValues kernels fuel) t s >>= compute kernels (syncValues kernels fuel) t) := by
  have hagrees := hs.agrees t k hk
  obtain ⟨e, hassign, -, -⟩ := hagrees.waiting hcompute
  have hmodule : k.module = some e := (hagrees.compiled hcompile).trans hassign
  have hoperands : kernels.operandsOf k = kernels.operands e := by rw [Kernels.operandsOf, hassign]; rfl
  have hassemble : k.needsAssemble = true := hagrees.assembled.trans hcompute
  have hdo : assemble kernels (syncValues kernels fuel) t s =
      (kernels.operandsOf k).foldlM (fun s u => syncValues kernels fuel u s) s >>= callAssemble kernels t := by
    rw [assemble, State.get_eq_ok.mpr hk, ok_bind, if_neg (by simp [hcompile]), if_pos hassemble]
  rw [hdo, bind_assoc]
  refine (syncOperands hsync hs hk hcompute).bind ?_
  rintro s₂ ⟨hs₂, -, ht₂, hsynced₂⟩
  have hk₂ : s₂ t = some k := ht₂.trans hk
  have hcall : callAssemble kernels t s₂ = .ok (s₂.set t { k with
      storage := kernels.assemble e ((kernels.operands e).map s₂.storage)
      needsAssemble := false }) := by
    simp only [callAssemble, State.get_eq_ok.mpr hk₂, ok_bind, hmodule, packArguments, hoperands]
  rw [hcall, ok_bind]
  exact computeAssembled hs₂ hk₂ hassign hmodule hcompile hcompute (hoperands ▸ hsynced₂)

end Computation

/-- Syncing a tensor does not change what the tensors stand for. -/
theorem syncValues_coherent (fuel : ℕ) (hs : Coherent kernels values s) :
    Outcome (Coherent kernels values) (· = .outOfDepth) (syncValues kernels fuel t s) := by
  induction fuel generalizing s t with
  | zero => rfl
  | succ fuel ih =>
    obtain ⟨k, hk⟩ := hs.living t
    change Outcome _ _ (syncBody kernels (syncValues kernels fuel) t s)
    rw [syncBody, State.get_eq_ok.mpr hk, ok_bind]
    split_ifs with hpack hcompute
    · exact pack_coherent hs hk
    · obtain ⟨e, hassign, -⟩ := (hs.agrees t k hk).waiting hcompute
      obtain ⟨s', hs', hcoherent, hk'⟩ := compile_coherent hs hk hassign
      rw [hs', ok_bind]
      exact computeWaiting (fun u s hs => ih hs) hcoherent hk' rfl hcompute
    · exact hs

end Taco.Tensor
