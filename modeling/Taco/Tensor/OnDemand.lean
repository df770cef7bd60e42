import Taco.Tensor.Eager

/-! What is read from tensors is what was assigned to them and inserted into them. -/

namespace Taco.Tensor

variable {T Coord V E : Type} [DecidableEq Coord] [AddCommMonoid V] {kernels : Kernels T Coord V E}

/-! ### Assigned values and inserted components -/

/-- The values the last assignment to each tensor gave it, zero if there was none, and the components inserted since. -/
structure History (T Coord V : Type) where
  assigned : T → Coord → V
  inserted : T → List (Coord × V)

namespace History

/-- Nothing was assigned or inserted. -/
def start : History T Coord V := ⟨fun _ _ => 0, fun _ => []⟩

/-- What a read of the tensor is to show. -/
def values (h : History T Coord V) (t : T) (c : Coord) : V := h.assigned t c + sumAt (h.inserted t) c

variable [DecidableEq T]

/-- An assignment takes its right-hand side from what its operands are to show, and drops the inserted components. -/
def assign (kernels : Kernels T Coord V E) (t : T) (e : E) (h : History T Coord V) : History T Coord V :=
  ⟨Function.update h.assigned t (kernels.value e ((kernels.operands e).map h.values)), Function.update h.inserted t []⟩

def record (kernels : Kernels T Coord V E) : Op T Coord V E → History T Coord V → History T Coord V
  | .insert t component, h => { h with inserted := Function.update h.inserted t (h.inserted t ++ [component]) }
  | .assign t e, h => h.assign kernels t e
  | .assignScalar t e, h => h.assign kernels t e
  | _, h => h

/-- What the reads among some operations are to show. -/
def reads (kernels : Kernels T Coord V E) : List (Op T Coord V E) → History T Coord V → List (Coord → V)
  | [], _ => []
  | .read t :: ops, h => h.values t :: reads kernels ops h
  | op :: ops, h => reads kernels ops (h.record kernels op)

theorem values_assign (t : T) (e : E) (h : History T Coord V) :
    (h.assign kernels t e).values = Function.update h.values t (kernels.value e ((kernels.operands e).map h.values)) := by
  funext u c
  by_cases hut : u = t
  · subst hut
    simp [values, assign]
  · simp [values, assign, hut]

/-- Each insertion adds its component, and each assignment replaces the values. -/
theorem values_record (op : Op T Coord V E) (h : History T Coord V) :
    (h.record kernels op).values = eager kernels op h.values := by
  cases op with
  | insert t component =>
    funext u c
    by_cases hut : u = t
    · subst hut
      simp [values, record, eager, add_assoc]
    · simp [values, record, eager, hut]
  | assign t e => exact values_assign t e h
  | assignScalar t e => exact values_assign t e h
  | _ => rfl

theorem reads_eq_eagerReads (ops : List (Op T Coord V E)) (h : History T Coord V) :
    h.reads kernels ops = eagerReads kernels ops h.values := by
  induction ops generalizing h with
  | nil => rfl
  | cons op ops ih =>
    cases op with
    | read t => exact congrArg _ (ih h)
    | _ =>
      rw [reads, ih, values_record]
      · rfl
      · exact nofun

/-- Two reads one after the other are to show the same. -/
theorem reads_twice (before after : List (Op T Coord V E)) (t : T) (h : History T Coord V) : ∃ shown rest f,
    h.reads kernels (before ++ .read t :: .read t :: after) = shown ++ f :: f :: rest ∧
      shown = h.reads kernels before := by
  induction before generalizing h with
  | nil => exact ⟨[], _, _, rfl, rfl⟩
  | cons op before ih =>
    cases op with
    | read u =>
      obtain ⟨shown, rest, f, hreads, hshown⟩ := ih h
      exact ⟨h.values u :: shown, rest, f, congrArg _ hreads, congrArg _ hshown⟩
    | _ => exact ih _

end History

variable [DecidableEq T] [Fintype T] [DecidableEq E]

/-- The content of a tensor nothing is assigned to: what is packed is in the storage, and the buffer is empty then. -/
structure Supplied (k : Content T Coord V E) : Prop where
  settled : k.needsCompute = false
  full : k.needsPack = true → k.Full
  packed : k.needsPack = false →
    k.neverPacked = false ∧ k.coordinateBuffer = [] ∧ (k.order ≠ 0 → k.coordinateBufferUsed = 0)

omit [DecidableEq Coord] [AddCommMonoid V] [DecidableEq T] [Fintype T] [DecidableEq E] in
theorem Supplied.of_entries {k : Content T Coord V E} (h : Supplied k) (l : List T) :
    Supplied { k with dependentTensors := l } := ⟨h.settled, h.full, h.packed⟩

omit [DecidableEq T] [Fintype T] [DecidableEq E] in
theorem Supplied.pack {k k' : Content T Coord V E} (h : Supplied k) (hk' : k.pack = .ok k') : Supplied k' := by
  by_cases hpack : k.needsPack = true
  · rw [Content.pack_of_full (h.full hpack) hpack] at hk'
    cases hk'
    exact ⟨h.settled, Bool.noConfusion, fun _ => ⟨rfl, rfl, fun horder => if_neg horder⟩⟩
  · rw [Content.pack_of_not (by simpa using hpack)] at hk'
    cases hk'
    exact h

omit [DecidableEq Coord] [AddCommMonoid V] [DecidableEq T] [Fintype T] [DecidableEq E] in
theorem Supplied.insertUnsynced {k k' : Content T Coord V E} {component : Coord × V} (h : Supplied k)
    (hk' : k.insertUnsynced component = .ok k') : Supplied { k' with needsPack := true } := by
  have hfull : k.Full := by
    by_cases hpack : k.needsPack = true
    · exact h.full hpack
    · -- A component is written into an empty buffer only if none counts as used.
      obtain ⟨-, hbuffer, -⟩ := h.packed (by simpa using hpack)
      rw [Content.Full, hbuffer]
      simp only [Content.insertUnsynced, hbuffer, List.length_nil] at hk'
      split_ifs at hk' with hfree hused hused <;> simp at hused ⊢
      all_goals omega
  rw [Content.insertUnsynced_of_full hfull] at hk'
  cases hk'
  refine ⟨h.settled, fun _ => ?_, Bool.noConfusion⟩
  rw [Content.Full] at hfull ⊢
  simp [hfull]

section Holds

variable {s : State T Coord V E} {Q : Content T Coord V E → Prop} {t u : T}
  (hentries : ∀ k l, Q k → Q { k with dependentTensors := l })

include hentries

omit [DecidableEq Coord] [AddCommMonoid V] [Fintype T] [DecidableEq E] in
theorem Holds.addDependentTensor (h : Holds Q u s) (w t : T) :
    Outcome (Holds Q u) (fun _ => True) (addDependentTensor w t s) := by
  cases hw : s w with
  | none => simp [Tensor.addDependentTensor, State.get, hw]
  | some k =>
    rw [Tensor.addDependentTensor, State.get_eq_ok.mpr hw]
    by_cases hwu : w = u
    · subst hwu
      obtain ⟨kw, hkw, hQ⟩ := h
      cases hw.symm.trans hkw
      exact ⟨_, State.set_self _ _ _, hentries k _ hQ⟩
    · exact h.set_of_ne hwu _

omit [Fintype T] in
theorem register_holds (h : Holds Q u s) (htu : t ≠ u) (e : E) (refersToSelf : Bool) :
    Outcome (Holds Q u) (fun _ => True) (register kernels t e refersToSelf s) := by
  refine Outcome.bind (Q := Holds Q u) (Outcome.foldlM_of_forall (fun w _ s' hs' =>
    hs'.addDependentTensor hentries w t) h) fun s₁ hs₁ => ?_
  cases ht₁ : s₁ t with
  | none => simp [State.get, ht₁]
  | some k₁ =>
    rw [State.get_eq_ok.mpr ht₁]
    exact hs₁.set_of_ne htu _

omit [Fintype T] in
theorem dropComputation_holds (h : Holds Q u s) (t : T) (e : E) :
    Outcome (Holds Q u) (fun _ => True) (dropComputation kernels t e s) := by
  cases ht : s t with
  | none => simp [dropComputation, State.get, ht]
  | some k =>
    rw [dropComputation, State.get_eq_ok.mpr ht, ok_bind]
    split_ifs
    · exact Outcome.foldlM_of_forall (fun w _ s' hs' => hs'.removeDependentTensor hentries t w) h
    · exact h

end Holds

/-- The operations on tensors that are either inserted into or assigned to: the assignments are plain, and do not read
    the tensor they define. -/
def Divided (kernels : Kernels T Coord V E) (inserted : T → Bool) : Op T Coord V E → Prop
  | .insert t _ => inserted t = true
  | .assign t e => inserted t = false ∧ kernels.compound e = false ∧ t ∉ kernels.operands e
  | .assignScalar t e => inserted t = false ∧ kernels.compound e = false ∧ t ∉ kernels.operands e
  | .read _ => True
  | _ => False

/-- Nothing is inserted into a scalar after components of it were packed, nor if the tensors that depend on it are about to
    have them packed; and only scalars are assigned to with `operator=`. -/
def ScalarsKept (kernels : Kernels T Coord V E) (s : State T Coord V E) : Op T Coord V E → Prop
  | .insert t _ => ∀ k, s t = some k → k.order = 0 → (k.needsPack = false → k.coordinateBufferUsed = 0) ∧
      (k.needsPack = true → k.unpacked ≠ [] → ∀ d ∈ k.dependentTensors, ¬ Reaches kernels s d t)
  | .assignScalar t _ => ∀ k, s t = some k → k.order = 0
  | _ => True

omit [Fintype T] [DecidableEq E] [DecidableEq T] in
theorem Divided.kept {inserted : T → Bool} {s : State T Coord V E} {op : Op T Coord V E} (hop : Divided kernels inserted op)
    (hs : ∀ t, inserted t = true → Holds Supplied t s) (hscalars : ScalarsKept kernels s op) : Kept kernels s op := by
  cases op with
  | insert t component =>
    intro k hk
    obtain ⟨kt, hkt, hsupplied⟩ := hs t hop
    cases hk.symm.trans hkt
    refine ⟨⟨hsupplied.settled, fun hpack => ?_⟩, fun horder => (hscalars k hk horder).2⟩
    obtain ⟨hnever, -, hused⟩ := hsupplied.packed hpack
    refine ⟨?_, by simp [hnever]⟩
    by_cases horder : k.order = 0
    · exact (hscalars k hk horder).1 hpack
    · exact hused horder
  | assign t e => exact hop.2
  | assignScalar t e => exact ⟨hop.2.1, hop.2.2, hscalars⟩
  | read t => trivial
  | _ => exact hop.elim

theorem Divided.step {inserted : T → Bool} {s s' : State T Coord V E} {op : Op T Coord V E} {fuel : ℕ}
    (hop : Divided kernels inserted op) (hs : ∀ t, inserted t = true → Holds Supplied t s)
    (hs' : step kernels fuel op s = .ok s') (u : T) (hu : inserted u = true) : Holds Supplied u s' := by
  have hentries : ∀ (k : Content T Coord V E) l, Supplied k → Supplied { k with dependentTensors := l } :=
    fun k l h => h.of_entries l
  have hne : ∀ t, inserted t = false → t ≠ u := by
    rintro t ht rfl
    simp [ht] at hu
  have hsync : ∀ t, Outcome (Holds Supplied u) (fun _ => True) (syncDependentTensors (syncValues kernels fuel) t s) :=
    syncDependentTensors_holds hentries (fun k k' => Supplied.pack) (fun k h => h.settled) fuel (hs u hu)
  rw [Tensor.step] at hs'
  split_ifs at hs'
  · cases op with
    | insert t component =>
      obtain ⟨s₁, hs₁, hs'⟩ := ok_of_bind hs'
      obtain ⟨k, hk, hs'⟩ := ok_of_bind hs'
      obtain ⟨k', hk', hs'⟩ := ok_of_bind hs'
      rw [State.get_eq_ok] at hk
      cases hs'
      have hholds := (hsync t).of_eq_ok hs₁
      by_cases htu : t = u
      · subst htu
        obtain ⟨kt, hkt, hsupplied⟩ := hholds
        cases hk.symm.trans hkt
        exact ⟨_, State.set_self _ _ _, hsupplied.insertUnsynced hk'⟩
      · exact hholds.set_of_ne htu _
    | assign t e =>
      refine Outcome.of_eq_ok (F := fun _ => True) ?_ hs'
      refine Outcome.bind (Outcome.bind (hsync t) fun s₁ hs₁ => dropComputation_holds hentries hs₁ t e) fun s₂ hs₂ => ?_
      exact register_holds hentries hs₂ (hne t hop.1) e _
    | assignScalar t e =>
      obtain ⟨k, hk, hs'⟩ := ok_of_bind hs'
      split_ifs at hs' with horder
      · cases hs'
        exact hs u hu
      · refine Outcome.of_eq_ok (F := fun _ => True) ?_ hs'
        rw [assignScalar, hk, ok_bind, if_neg horder]
        exact Outcome.bind (hsync t) fun s₁ hs₁ => register_holds hentries hs₁ (hne t hop.1) e _
    | read t =>
      exact (syncValues_holds hentries (fun k k' => Supplied.pack) (fun k h => h.settled) fuel (hs u hu) t).of_eq_ok hs'
    | _ => exact hop.elim
  · cases hs'
    exact hs u hu

theorem Divided.meets {inserted : T → Bool} {fuel : ℕ} {ops : List (Op T Coord V E)} {s : State T Coord V E}
    (hops : ∀ op ∈ ops, Divided kernels inserted op) (hs : ∀ t, inserted t = true → Holds Supplied t s)
    (h : Meets kernels (ScalarsKept kernels) fuel ops s) : Meets kernels (Kept kernels) fuel ops s := by
  induction ops generalizing s with
  | nil => trivial
  | cons op ops ih =>
    have hop := hops op (List.mem_cons_self ..)
    exact ⟨hop.kept hs h.1, fun s' hs' =>
      ih (fun op' hop' => hops op' (List.mem_cons_of_mem op hop')) (hop.step hs hs') (h.2 s' hs')⟩

end Taco.Tensor
