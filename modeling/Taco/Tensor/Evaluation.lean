import Taco.Tensor.Compound
import Taco.Tensor.OnDemand

/-! Explicit evaluation against reading directly. -/

namespace Taco.Tensor

variable {T Coord V E : Type} [DecidableEq T] [DecidableEq Coord] [AddCommMonoid V] [Fintype T] [DecidableEq E]
  {kernels : Kernels T Coord V E} {values : T → Coord → V} {s : State T Coord V E} {t : T} {e : E}

/-! ### The assignment -/

/-- An assignment first syncs the dependents of its tensor, and then nothing waits for the tensor. -/
theorem assign_outcome (hs : Coherent kernels values s) (t : T) (e : E) : ∃ bound s₁ k₁,
    syncDependentTensors (syncValues kernels bound) t s = .ok s₁ ∧ s₁ t = some k₁ ∧ Coherent kernels values s₁ ∧
      (∀ d, ¬ Reads kernels s₁ t d) ∧ ∀ fuel, bound ≤ fuel → step kernels fuel (.assign t e) s =
        .ok (assigned kernels t e (!kernels.compound e) (k₁.droppedOperands kernels e) s₁) := by
  obtain ⟨bound, hbound⟩ := syncDependentTensors_halts hs.acyclic t
  have hends := hbound bound (Nat.le_refl bound)
  rcases syncDependentTensors_cases bound hs t with hs₁ | ⟨s₁, k₁, hs₁, hk₁, hcoherent, -, hread⟩
  · rw [hs₁] at hends
    exact absurd rfl hends
  · refine ⟨bound, s₁, k₁, hs₁, hk₁, hcoherent, hread, fun fuel hfuel => ?_⟩
    have hhandles : ∀ u ∈ (Op.assign t e : Op T Coord V E).tensors kernels, (s u).isSome := fun u _ =>
      Option.isSome_iff_exists.mpr (hs.living u)
    have hbelow : Below .outOfDepth (syncDependentTensors (syncValues kernels bound) t s)
        (syncDependentTensors (syncValues kernels fuel) t s) :=
      syncDependentTensors_below (fun t s => syncValues_below hfuel t s) t s
    have hsame := hbelow (by simp [hs₁])
    rw [step, if_pos hhandles, perform,
      setAssignment_eq (hsame.trans hs₁) hcoherent.registered hk₁ fun u _ => hcoherent.living u]

/-- A tensor is read after it was assigned to. -/
theorem run_read {fuel : ℕ} {s₁ s₂ : State T Coord V E} {k : Content T Coord V E}
    (h₁ : step kernels fuel (.assign t e) s = .ok s₁) (h₂ : step kernels fuel (.read t) s₁ = .ok s₂) (hk : s₂ t = some k) :
    run kernels fuel [.assign t e, .read t] s = .ok (s₂, [k.storage]) := by
  rw [run, h₁, ok_bind, run, h₂, ok_bind]
  simp [run, seen, hk]

theorem run_evaluate_read {fuel : ℕ} {s₁ s₂ s₃ : State T Coord V E} {k : Content T Coord V E}
    (h₁ : step kernels fuel (.assign t e) s = .ok s₁) (h₂ : step kernels fuel (.evaluate t) s₁ = .ok s₂)
    (h₃ : step kernels fuel (.read t) s₂ = .ok s₃) (hk : s₃ t = some k) :
    run kernels fuel [.assign t e, .evaluate t, .read t] s = .ok (s₃, [k.storage]) := by
  rw [run, h₁, ok_bind, run, h₂, ok_bind, run, h₃, ok_bind]
  simp [run, seen, hk]

omit [Fintype T] [DecidableEq E] in
/-- The storage of a synced tensor stays while its dependents are synced. -/
theorem storage_of_synced {fuel : ℕ} {s₁ : State T Coord V E} {k k₁ : Content T Coord V E} (ht : Synced s t) (hk : s t = some k)
    (hs₁ : syncDependentTensors (syncValues kernels fuel) t s = .ok s₁) (hk₁ : s₁ t = some k₁) :
    k₁.needsPack = false ∧ k₁.needsCompute = false ∧ k₁.storage = k.storage := by
  obtain ⟨hpack, hcompute⟩ := ht k hk
  have hholds : Outcome (Holds (fun k' => k'.needsPack = false ∧ k'.needsCompute = false ∧ k'.storage = k.storage) t)
      (fun _ => True) (syncDependentTensors (syncValues kernels fuel) t s) := by
    refine syncDependentTensors_holds (fun _ _ h => h) ?_ (fun _ h => h.2.1) fuel ⟨k, hk, hpack, hcompute, rfl⟩ t
    rintro k' k'' ⟨hpack', hrest⟩ hk''
    rw [Content.pack_of_not hpack'] at hk''
    cases hk''
    exact ⟨hpack', hrest⟩
  obtain ⟨k', hk', h⟩ := hholds.of_eq_ok hs₁
  cases hk₁.symm.trans hk'
  exact h

/-! ### Reading directly -/

variable {code : Code T Coord V E}

omit [DecidableEq T] [Fintype T] [DecidableEq E] in
/-- Tensors stand for their values whatever is allocated. -/
theorem coherent_allocated (allocated : V) (hs : Coherent (code.kernels 0) values s) :
    Coherent (code.kernels allocated) values s where
  living := hs.living
  registered := ⟨hs.registered.living, hs.registered.packed, hs.registered.entry⟩
  acyclic := hs.acyclic
  agrees u k hk := by
    have hagrees := hs.agrees u k hk
    exact ⟨hagrees.buffer, hagrees.full, hagrees.contents, hagrees.waiting, hagrees.compiled, hagrees.assembled⟩

omit [DecidableEq T] [Fintype T] [DecidableEq E] in
theorem coherent_direct (allocated : V) (hs : Coherent (code.kernels allocated) values s) :
    Coherent (code.directKernels allocated) values s where
  living := hs.living
  registered := ⟨hs.registered.living, hs.registered.packed, hs.registered.entry⟩
  acyclic := hs.acyclic
  agrees u k hk := by
    have hagrees := hs.agrees u k hk
    refine ⟨hagrees.buffer, hagrees.full, hagrees.contents, fun hneeds => ?_, hagrees.compiled, hagrees.assembled⟩
    obtain ⟨e, hassign, hplain, hvalue⟩ := hagrees.waiting hneeds
    exact ⟨e, hassign, rfl, hvalue.trans (Code.direct_of_plain allocated hplain).symm⟩

/-- Read directly, a tensor shows what the two functions compute one after the other. -/
theorem run_direct (allocated : V) (hs : Coherent (code.kernels allocated) values s) (hself : t ∉ code.operands e) :
    ∃ bound, ∀ fuel, bound ≤ fuel → ∃ s' st, run (code.kernels allocated) fuel [.assign t e, .read t] s = .ok (s', [st]) ∧
      st.read = code.direct allocated e ((code.operands e).map values) := by
  obtain ⟨bound, s₁, k₁, -, hk₁, hs₁, hread, hassign⟩ := assign_outcome hs t e
  have hassigned : Coherent (code.directKernels allocated)
      (Function.update values t (code.direct allocated e ((code.operands e).map values)))
      (assigned (code.directKernels allocated) t e (!code.compound e) (k₁.droppedOperands (code.kernels allocated) e) s₁) :=
    assigned_coherent (coherent_direct allocated hs₁) rfl hself hread _ _
  have hkept : Kept (code.directKernels allocated) (assigned (code.directKernels allocated) t e (!code.compound e)
    (k₁.droppedOperands (code.kernels allocated) e) s₁) (.read t) := trivial
  obtain ⟨bound', s', hstep, hs', hseen⟩ := step_eager hassigned hkept
  obtain ⟨k', hk'⟩ := hs'.living t
  refine ⟨max bound bound', fun fuel hfuel => ⟨s', k'.storage, ?_, ?_⟩⟩
  · -- Reading does not depend on what assignments mean.
    have hstep' : step (code.kernels allocated) fuel (.read t) (assigned (code.kernels allocated) t e (!code.compound e)
        (k₁.droppedOperands (code.kernels allocated) e) s₁) = .ok s' := hstep fuel (le_of_max_le_right hfuel)
    exact run_read (hassign fuel (le_of_max_le_left hfuel)) hstep' hk'
  · have hvalue : k'.storage.read = Function.update values t (code.direct allocated e ((code.operands e).map values)) t := by
      simpa [seen, hk', eagerReads] using hseen
    rw [hvalue, Function.update_self]

/-! ### Explicit evaluation -/

/-- The content of a tensor whose computation has begun after a compound assignment to it. -/
def Content.begun (k : Content T Coord V E) (e : E) (needsAssemble : Bool) : Content T Coord V E :=
  { k with
    needsCompile := false
    module := some e
    needsAssemble := needsAssemble
    needsCompute := false }

section Unread

variable {k : Content T Coord V E} (hk : s t = some k) (hcompute : k.needsCompute = false)
  (hread : ∀ d, ¬ Reads kernels s t d)

omit [Fintype T] [DecidableEq E] [DecidableEq T] [DecidableEq Coord] [AddCommMonoid V] in
include hk hcompute in
theorem not_pending_of_settled : ¬ Pending s t := by
  rintro ⟨k', hk', hneeds⟩
  cases hk.symm.trans hk'
  simp [hcompute] at hneeds

omit [Fintype T] [DecidableEq E] [DecidableEq T] in
include hread in
theorem not_reaches_of_unread {u : T} (hut : u ≠ t) : ¬ Reaches kernels s u t := by
  intro hreach
  rcases Relation.ReflTransGen.cases_head hreach with rfl | ⟨d, hd, -⟩
  · exact hut rfl
  · exact hread d hd

omit [Fintype T] [DecidableEq E] in
include hk hcompute hread in
/-- Once its computation has begun, a tensor that nothing waits for is left alone, and loses its entries. -/
theorem linkOperands (fuel : ℕ) (hs : Coherent kernels values s) {l : List T} (hl : t ∉ l) :
    Outcome (fun s' => Coherent kernels values s' ∧ s' t = some k ∧ ∀ u ∈ l, Synced s' u) (· = .outOfDepth)
      (l.foldlM (fun s u => syncValues kernels fuel u s >>= removeDependentTensor u t) s) := by
  have hnot := not_pending_of_settled hk hcompute
  have hfold : Outcome (fun s' => (Coherent kernels values s' ∧ Evolves s s' ∧ s' t = some k) ∧ ∀ u ∈ l, Synced s' u)
      (· = Fault.outOfDepth) (l.foldlM (fun s u => syncValues kernels fuel u s >>= removeDependentTensor u t) s) := by
    refine Outcome.foldlM (fun before s' => (Coherent kernels values s' ∧ Evolves s s' ∧ s' t = some k) ∧
      ∀ u ∈ before, Synced s' u) ?_ ⟨⟨hs, .refl s, hk⟩, by simp⟩
    rintro before u after s' hsplit ⟨⟨hs', hevolves, ht⟩, hsynced⟩
    have hut : u ≠ t := by
      rintro rfl
      exact hl (by simp [hsplit])
    have hcoherent := syncValues_coherent (t := u) fuel hs'
    have hspares := syncValues_spares fuel hevolves (not_reaches_of_unread hread hut)
    cases hs'' : syncValues kernels fuel u s' with
    | error fault => rwa [hs''] at hcoherent
    | ok s'' =>
      rw [hs''] at hcoherent
      have hcoherent' : Coherent kernels values s'' := hcoherent
      obtain ⟨hevolves', ht'⟩ := hspares.of_eq_ok hs''
      obtain ⟨ku, hku⟩ := hcoherent'.living u
      have hnot' : ¬ Pending s'' t := fun hp => hnot ((hevolves.trans hevolves').pending hp)
      have hremove : removeDependentTensor u t s'' =
          .ok (s''.set u { ku with dependentTensors := removeEntry t ku.dependentTensors }) := by
        rw [removeDependentTensor, State.get_eq_ok.mpr hku, ok_bind]
      have hevolves₃ := removeDependentTensor_evolves hnot' hremove
      rw [ok_bind, hremove]
      refine ⟨⟨hcoherent'.of_evolves hevolves₃ fun w kw hkw => ?_, (hevolves.trans hevolves').trans hevolves₃, ?_⟩,
        fun w hw => ?_⟩
      · by_cases hwu : w = u
        · subst hwu
          rw [State.set_self] at hkw
          cases hkw
          exact (hcoherent'.agrees w ku hku).of_entries rfl
        · rw [State.set_of_ne _ _ hwu] at hkw
          exact hcoherent'.agrees w kw hkw
      · rw [State.set_of_ne _ _ hut.symm, ht', ht]
      · rcases List.mem_append.mp hw with hw | hw
        · exact ((hsynced w hw).of_evolves hevolves').of_evolves hevolves₃
        · rw [List.mem_singleton.mp hw]
          exact (syncValues_synced hs'.registered hs'').of_evolves hevolves₃
  exact hfold.mono (fun _ h => ⟨h.1.1, h.1.2.2, h.2⟩) fun _ h => h

omit [Fintype T] [DecidableEq E] in
include hk hcompute hread in
/-- The operands are synced in the same way whatever the content of the tensor. -/
theorem linkOperands_ignores (fuel : ℕ) {l : List T} (hl : t ∉ l) (k' : Content T Coord V E) :
    Ignores t k' (fun s => l.foldlM (fun s u => syncValues kernels fuel u s >>= removeDependentTensor u t) s) s := by
  have hnot := not_pending_of_settled hk hcompute
  refine Ignores.foldlM (I := Evolves s) (fun u hu s' hs' => ⟨?_, fun s'' hs'' => ?_⟩) (.refl s)
  · have htu : t ≠ u := by
      rintro rfl
      exact hl hu
    exact (syncValues_ignores fuel hs' (not_reaches_of_unread hread htu.symm)).bind fun s'' _ =>
      removeDependentTensor_ignores htu
  · obtain ⟨s₁, hs₁, hs''⟩ := ok_of_bind hs''
    have hevolves := hs'.trans (syncValues_evolves hs₁)
    exact hevolves.trans (removeDependentTensor_evolves (fun hp => hnot (hevolves.pending hp)) hs'')

end Unread

omit [Fintype T] in
/-- When the computation of an assigned tensor begins, the tensor still stands for its old contents. -/
theorem begun_coherent {k₁ k : Content T Coord V E} (hs : Coherent kernels values s) (hread : ∀ d, ¬ Reads kernels s t d)
    (hk₁ : s t = some k₁) (hpack : k₁.needsPack = false) (hcompute : k₁.needsCompute = false)
    (hself : t ∉ kernels.operands e) {refersToSelf : Bool} {old : List T}
    (hk : assigned kernels t e refersToSelf old s t = some k) :
    Coherent kernels values ((assigned kernels t e refersToSelf old s).set t (k.begun e false)) ∧
      ∀ d, ¬ Reads kernels ((assigned kernels t e refersToSelf old s).set t (k.begun e false)) t d := by
  obtain ⟨k', hk', hkeq⟩ := assigned_eq_some hk
  cases hk₁.symm.trans hk'
  rw [if_pos rfl] at hkeq
  have hstart : Evolves (assigned kernels t e refersToSelf old s)
      ((assigned kernels t e refersToSelf old s).set t (k.begun e false)) :=
    Evolves.set hk ⟨rfl, rfl, rfl, id, Bool.noConfusion, Bool.noConfusion, .refl _⟩ fun d hd _ => hd
  refine ⟨⟨fun u => ?_, (hs.registered.assigned fun u _ => hs.living u).of_evolves hstart, fun d => ?_, fun u ku hku => ?_⟩,
    fun d hd => ?_⟩
  · obtain ⟨ku, hku⟩ := hs.living u
    by_cases hut : u = t
    · exact ⟨_, by rw [hut, State.set_self]⟩
    · exact ⟨_, by rw [State.set_of_ne _ _ hut, assigned, hku]; rfl⟩
  · exact Subrelation.accessible (fun {_ _} h => Reads.of_evolves hstart h) (acyclic_assigned hs.acyclic hread hself d)
  · by_cases hut : u = t
    · subst hut
      rw [State.set_self] at hku
      cases hku
      have hagrees := hs.agrees u k₁ hk₁
      rw [hkeq]
      refine ⟨hagrees.buffer, Bool.noConfusion, fun _ => ?_, Bool.noConfusion, fun _ => rfl, rfl⟩
      rw [← hagrees.contents hcompute, Content.contents, Content.contents, hpack]
      rfl
    · rw [State.set_of_ne _ _ hut] at hku
      obtain ⟨ku', hku', rfl⟩ := assigned_eq_some hku
      rw [if_neg hut]
      exact (hs.agrees u ku' hku').of_entries rfl
  · obtain ⟨kd, hkd, hneeds, hmem⟩ := hd
    by_cases hdt : d = t
    · subst hdt
      rw [State.set_self] at hkd
      cases hkd
      cases hneeds
    · rw [State.set_of_ne _ _ hdt] at hkd
      obtain ⟨kd', hkd', rfl⟩ := assigned_eq_some hkd
      rw [if_neg hdt] at hneeds hmem
      exact hread d ⟨kd', hkd', hneeds, hmem⟩

omit [Fintype T] [DecidableEq E] in
theorem callCompute_eq {k : Content T Coord V E} (hk : s t = some k) (hmodule : k.module = some e) :
    callCompute kernels t s = (kernels.compute e k.storage (packArguments kernels s k)).elim (.error .kernelFault)
      fun storage => .ok (s.set t { k with storage := storage }) := by
  rw [callCompute, State.get_eq_ok.mpr hk, ok_bind, hmodule]
  dsimp only
  cases kernels.compute e k.storage (packArguments kernels s k) with
  | none => rfl
  | some storage => rfl

omit [Fintype T] in
/-- The compute function of a compound assignment writes into the old storage of its tensor. -/
theorem evaluate_compound {allocated : V} (fuel : ℕ) {k₁ : Content T Coord V E}
    (hs : Coherent (code.kernels allocated) values s) (hread : ∀ d, ¬ Reads (code.kernels allocated) s t d)
    (hk₁ : s t = some k₁) (hpack : k₁.needsPack = false) (hcompute : k₁.needsCompute = false)
    (hself : t ∉ code.operands e) (hcompound : code.compound e = true) (refersToSelf : Bool) (old : List T) :
    Outcome (fun s' => ∃ k', s' t = some k' ∧ k'.needsPack = false ∧ k'.needsCompute = false ∧
        code.compute e k₁.storage ((code.operands e).map values) = some k'.storage)
      (fun fault => fault = .outOfDepth ∨
        fault = .kernelFault ∧ code.compute e k₁.storage ((code.operands e).map values) = none)
      (evaluate (code.kernels allocated) (syncValues (code.kernels allocated) fuel) t
        (assigned (code.kernels allocated) t e refersToSelf old s)) := by
  obtain ⟨s₂, hs₂⟩ : ∃ s₂, s₂ = assigned (code.kernels allocated) t e refersToSelf old s := ⟨_, rfl⟩
  obtain ⟨k₂, hk₂, hk₂eq⟩ : ∃ k₂, s₂ t = some k₂ ∧ k₂ = { k₁.assign e refersToSelf with
      dependentTensors := relinked t old (code.operands e) t k₁.dependentTensors } :=
    ⟨_, by rw [hs₂, assigned_self hk₁]; rfl, rfl⟩
  obtain ⟨hcoherent, hunread⟩ := begun_coherent hs hread hk₁ hpack hcompute hself (hs₂ ▸ hk₂)
  rw [← hs₂] at hcoherent hunread ⊢
  -- The tensor is compiled, and its computation begins; that its storage is not assembled does not matter.
  have hassign : k₂.assignment = some e := by rw [hk₂eq]; rfl
  have hmodule : k₂.needsCompile = false → k₂.module = some e := by
    rw [hk₂eq]
    intro hneeds
    simp only [Content.assign, Bool.or_eq_false_iff, decide_eq_false_iff_not, not_not] at hneeds ⊢
    rw [← hneeds.2]
    exact (hs.agrees t k₁ hk₁).compiled hneeds.1
  have hcompile : compile t s₂ = .ok (s₂.set t { k₂ with needsCompile := false, module := some e }) := by
    simp only [compile, State.get_eq_ok.mpr hk₂, ok_bind, hassign]
    split_ifs with hneeds
    · rfl
    · rw [Bool.not_eq_true] at hneeds
      have hsame : { k₂ with needsCompile := false, module := some e } = k₂ := by
        rw [← hneeds, ← hmodule hneeds]
      rw [hassign] at hsame
      rw [hsame, State.set, ← hk₂, Function.update_eq_self]
  have hset : s₂.set t (k₂.begun e false) t = some (k₂.begun e false) := State.set_self _ _ _
  have hbegin : compute (code.kernels allocated) (syncValues (code.kernels allocated) fuel) t
      (s₂.set t { k₂ with needsCompile := false, module := some e }) =
        ((code.operands e).foldlM (fun s u => syncValues (code.kernels allocated) fuel u s >>= removeDependentTensor u t)
          (s₂.set t (k₂.begun e false))).map (fun s' => s'.set t (k₂.begun e true)) >>=
            callCompute (code.kernels allocated) t := by
    have hoperands : (code.kernels allocated).operandsOf { k₂ with needsCompile := false, module := some e } =
        code.operands e := by
      rw [Kernels.operandsOf, hassign]
      rfl
    have hbegun : { k₂ with needsCompile := false, module := some e, needsCompute := false } = k₂.begun e true := by
      rw [Content.begun, hk₂eq]
      rfl
    have hignores := linkOperands_ignores hset rfl hunread fuel hself (k₂.begun e true)
    rw [Ignores, State.set, State.set, Function.update_idem] at hignores
    rw [compute, State.get_eq_ok.mpr (State.set_self _ _ _), ok_bind, if_neg Bool.false_ne_true,
      if_pos (by rw [hk₂eq]; rfl), hoperands, hbegun, State.set, State.set, Function.update_idem, hignores]
    rfl
  have hevaluate : evaluate (code.kernels allocated) (syncValues (code.kernels allocated) fuel) t s₂ =
      compute (code.kernels allocated) (syncValues (code.kernels allocated) fuel) t
        (s₂.set t { k₂ with needsCompile := false, module := some e }) := by
    rw [evaluate, hcompile, ok_bind, State.get_eq_ok.mpr (State.set_self _ _ _), ok_bind]
    refine if_pos ?_
    rw [hassign]
    exact hcompound
  rw [hevaluate, hbegin]
  have hlink := linkOperands hset rfl hunread fuel hcoherent hself
  cases hs₃ : (code.operands e).foldlM (fun s u => syncValues (code.kernels allocated) fuel u s >>= removeDependentTensor u t)
      (s₂.set t (k₂.begun e false)) with
  | error fault =>
    rw [hs₃] at hlink
    exact .inl hlink
  | ok s₃ =>
    rw [hs₃] at hlink
    obtain ⟨hcoherent₃, -, hsynced⟩ := hlink
    have hargs : (packArguments (code.kernels allocated) (s₃.set t (k₂.begun e true)) (k₂.begun e true)).map Storage.read =
        (code.operands e).map values := by
      have hoperands : (code.kernels allocated).operandsOf (k₂.begun e true) = code.operands e := by
        rw [Kernels.operandsOf, Content.begun, hassign]
        rfl
      rw [packArguments, hoperands, List.map_map]
      refine List.map_congr_left fun u hu => ?_
      have htu : t ≠ u := by
        rintro rfl
        exact hself hu
      rw [Function.comp_apply, storage_set_of_ne htu]
      exact hcoherent₃.read_of_synced (hsynced u hu)
    have hstorage : (k₂.begun e true).storage = k₁.storage := by
      rw [hk₂eq]
      rfl
    have hcall : callCompute (code.kernels allocated) t (s₃.set t (k₂.begun e true)) =
        (code.compute e k₁.storage ((code.operands e).map values)).elim (.error .kernelFault) fun st =>
          .ok ((s₃.set t (k₂.begun e true)).set t { k₂.begun e true with storage := st }) := by
      rw [callCompute_eq (State.set_self _ _ _) rfl, ← hargs, ← hstorage]
      rfl
    change Outcome _ _ (callCompute (code.kernels allocated) t (s₃.set t (k₂.begun e true)))
    rw [hcall]
    cases hst : code.compute e k₁.storage ((code.operands e).map values) with
    | none => exact .inr ⟨rfl, rfl⟩
    | some st =>
      refine ⟨_, State.set_self _ _ _, ?_, rfl, rfl⟩
      rw [hk₂eq]
      rfl

theorem step_read_of_synced {fuel : ℕ} {k : Content T Coord V E} (hk : s t = some k) (hpack : k.needsPack = false)
    (hcompute : k.needsCompute = false) (hfuel : 1 ≤ fuel) : step kernels fuel (.read t) s = .ok s := by
  obtain ⟨fuel, rfl⟩ := Nat.exists_eq_add_of_le' hfuel
  rw [step, if_pos (by simp [Op.tensors, hk])]
  change syncBody kernels (syncValues kernels fuel) t s = _
  simp [syncBody, State.get_eq_ok.mpr hk, hpack, hcompute]

/-- Evaluated explicitly, a compound assignment shows what its compute function writes into the old storage. -/
theorem run_explicit {allocated : V} {k : Content T Coord V E} (hs : Coherent (code.kernels allocated) values s)
    (ht : Synced s t) (hk : s t = some k) (hself : t ∉ code.operands e) (hcompound : code.compound e = true) :
    ∃ bound, ∀ fuel, bound ≤ fuel →
      match code.compute e k.storage ((code.operands e).map values) with
      | some st => ∃ s', run (code.kernels allocated) fuel [.assign t e, .evaluate t, .read t] s = .ok (s', [st])
      | none => run (code.kernels allocated) fuel [.assign t e, .evaluate t, .read t] s = .error .kernelFault := by
  obtain ⟨bound, s₁, k₁, hsync, hk₁, hs₁, hread, hassign⟩ := assign_outcome hs t e
  obtain ⟨hpack, hcompute, hstorage⟩ := storage_of_synced ht hk hsync hk₁
  obtain ⟨s₂, hs₂⟩ : ∃ s₂, s₂ = assigned (code.kernels allocated) t e (!code.compound e)
      (k₁.droppedOperands (code.kernels allocated) e) s₁ := ⟨_, rfl⟩
  have hacyclic : ∀ d, Acc (Reads (code.kernels allocated) s₂) d := hs₂ ▸ acyclic_assigned hs₁.acyclic hread hself
  obtain ⟨bound', hbound'⟩ := evaluate_halts hacyclic t
  refine ⟨max (max bound bound') 1, fun fuel hfuel => ?_⟩
  have hstep := hassign fuel (le_of_max_le_left (le_of_max_le_left hfuel))
  have hends := hbound' fuel (le_of_max_le_right (le_of_max_le_left hfuel))
  have hone : 1 ≤ fuel := le_of_max_le_right hfuel
  have hevaluate := evaluate_compound fuel hs₁ hread hk₁ hpack hcompute hself hcompound (!code.compound e)
    (k₁.droppedOperands (code.kernels allocated) e)
  rw [← hs₂, hstorage] at hevaluate
  obtain ⟨k₂, hk₂, hassignment⟩ : ∃ k₂, s₂ t = some k₂ ∧ k₂.assignment = some e :=
    ⟨_, by rw [hs₂, assigned_self hk₁], rfl⟩
  have hperform : step (code.kernels allocated) fuel (.evaluate t) s₂ =
      evaluate (code.kernels allocated) (syncValues (code.kernels allocated) fuel) t s₂ := by
    rw [step, if_pos (by simp [Op.tensors, hk₂]), perform, State.get_eq_ok.mpr hk₂, ok_bind, hassignment]
    rfl
  have hstep₁ : step (code.kernels allocated) fuel (.assign t e) s = .ok s₂ := by
    rw [hs₂]
    exact hstep
  cases hs₃ : evaluate (code.kernels allocated) (syncValues (code.kernels allocated) fuel) t s₂ with
  | error fault =>
    rw [hs₃] at hevaluate hends
    obtain rfl | ⟨rfl, hnone⟩ := hevaluate
    · exact absurd rfl hends
    · rw [hnone]
      dsimp only
      rw [run, hstep₁, ok_bind, run, hperform, hs₃]
      rfl
  | ok s₃ =>
    rw [hs₃] at hevaluate
    obtain ⟨k₃, hk₃, hpack₃, hcompute₃, hst⟩ := hevaluate
    rw [hst]
    exact ⟨s₃, run_evaluate_read hstep₁ (hperform.trans hs₃) (step_read_of_synced hk₃ hpack₃ hcompute₃ hone) hk₃⟩

/-- A tensor that is assigned an expression of itself is never read. -/
theorem run_stuck {fuel : ℕ} (hs : Coherent kernels values s) (hself : t ∈ kernels.operands e) (s' : State T Coord V E)
    (storages : List (Storage Coord V)) : run kernels fuel [.assign t e, .read t] s ≠ .ok (s', storages) := by
  intro hrun
  obtain ⟨s₁, hs₁, hrun⟩ := ok_of_bind hrun
  obtain ⟨r, hr, -⟩ := ok_of_bind hrun
  obtain ⟨s₂, hs₂, -⟩ := ok_of_bind hr
  have hhandles : ∀ op : Op T Coord V E, ∀ s₁ : State T Coord V E, (∀ u, ∃ k, s₁ u = some k) →
      ∀ u ∈ op.tensors kernels, (s₁ u).isSome := fun op s₁ hliving u _ => Option.isSome_iff_exists.mpr (hliving u)
  rw [step, if_pos (hhandles _ s hs.living)] at hs₁
  obtain ⟨s₀, k, -, hk, -, rfl⟩ := setAssignment_inv hs.registered (hhandles (.assign t e) s hs.living) hs₁
  have hwaits : Holds (WaitsForSelf kernels t) t
      (assigned kernels t e (!kernels.compound e) (k.droppedOperands kernels e) s₀) :=
    ⟨_, assigned_self hk, rfl, rfl, rfl, hself⟩
  rw [step, if_pos (by simp [Op.tensors, assigned_self hk])] at hs₂
  exact ((syncValues_stuck fuel hwaits t).of_eq_ok hs₂).2 rfl

/-! ### Both ways -/

/-- Evaluated explicitly and read directly, the assigned tensor shows what the assignment means, whatever newly allocated
    memory holds. -/
def EvaluationsAgree (code : Code T Coord V E) (values : T → Coord → V) (s : State T Coord V E) (t : T) (e : E) : Prop :=
  ∀ allocated, ∃ bound, ∀ fuel, bound ≤ fuel → ∃ s₁ st₁ s₂ st₂,
    run (code.kernels allocated) fuel [.assign t e, .evaluate t, .read t] s = .ok (s₁, [st₁]) ∧
    run (code.kernels allocated) fuel [.assign t e, .read t] s = .ok (s₂, [st₂]) ∧
    st₁.read = st₂.read ∧ st₂.read = code.meaning e (values t) ((code.operands e).map values)

omit [DecidableEq T] [DecidableEq Coord] [Fintype T] [DecidableEq E] in
/-- The code for sums of dense vectors of size `n`: the values are set to zero, and a compound assignment adds to them. -/
def vectorSums (n : ℕ) : Code T ℕ V (SumAssignment T) where
  operands := SumAssignment.operands
  nodup_operands := SumAssignment.nodup
  compound := SumAssignment.compound
  value _ args c := if c < n then (args.map fun f => f c).sum else 0
  pattern _ _ := List.range n
  nodup_pattern _ _ := List.nodup_range
  value_eq_zero _ _ _ hc := if_neg fun h => hc (List.mem_range.mpr h)
  zeroed := SumAssignment.compound
  accumulates := SumAssignment.compound
  zeroed_of_plain _ _ h := h

/-- A vector of size one that was packed and holds zero. -/
def packedZero : Content (Fin 2) ℕ ℤ (SumAssignment (Fin 2)) :=
  { Content.new 1 sparse with
    storage := ⟨[(0, 0)], List.nodup_singleton 0⟩
    neverPacked := false
    needsPack := false }

end Taco.Tensor
