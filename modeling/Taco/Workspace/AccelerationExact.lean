import Taco.Workspace.Acceleration

/-! When an accelerated workspace computes what one computes that is zeroed. -/

namespace Taco
namespace Workspace

/-! ### Iterations -/

section

variable {dims : IndexVar → ℕ} {vars : List IndexVar} {env env' : Env}

theorem iterations_apply_of_notMem (h : env' ∈ iterations dims vars env) {v : IndexVar} (hv : v ∉ vars) :
    env' v = env v := by
  induction vars generalizing env with
  | nil => rw [List.mem_singleton.mp h]
  | cons u vars ih =>
    obtain ⟨c, -, h⟩ := List.mem_flatMap.mp h
    rw [List.mem_cons, not_or] at hv
    obtain ⟨hne, hv⟩ := hv
    rw [ih h hv, Function.update_of_ne hne]

/-- Loops over single coordinates iterate once. -/
theorem iterations_of_one (h : ∀ v ∈ vars, dims v = 1) (henv : ∀ v ∈ vars, env v = 0) :
    iterations dims vars env = [env] := by
  induction vars with
  | nil => rfl
  | cons u vars ih =>
    have hupdate : Function.update env u 0 = env := by rw [← henv u List.mem_cons_self, Function.update_eq_self]
    have hrest := ih (fun v hv => h v (List.mem_cons_of_mem u hv)) fun v hv => henv v (List.mem_cons_of_mem u hv)
    simp [iterations, h u List.mem_cons_self, hupdate, hrest]

/-- One of the iterations is the first of each loop. -/
theorem exists_first_iteration (hpos : ∀ v, 0 < dims v) (vars : List IndexVar) (env : Env) :
    ∃ env' ∈ iterations dims vars env, ∀ v ∈ vars, env' v = 0 := by
  induction vars generalizing env with
  | nil => exact ⟨env, List.mem_singleton_self env, by simp⟩
  | cons u vars ih =>
    obtain ⟨env', hmem, hzero⟩ := ih (Function.update env u 0)
    refine ⟨env', List.mem_flatMap.mpr ⟨0, List.mem_range.mpr (hpos u), hmem⟩, fun v hv => ?_⟩
    by_cases hvars : v ∈ vars
    · exact hzero v hvars
    · obtain rfl : v = u := (List.mem_cons.mp hv).resolve_right hvars
      rw [iterations_apply_of_notMem hmem hvars, Function.update_self]

end

/-! ### Producers -/

variable {V : Type} [Ring V]

namespace State

variable {s t : State V} {w : Write V} {ws : List (Write V)}

theorem trackedStore_tracker : (s.trackedStore w).tracker = s.tracker.insert w.loc := by
  rw [trackedStore]
  cases hguard : s.tracker.guard w.loc with
  | true => rw [TrackedSet.insert_of_guard hguard]; rfl
  | false => rw [TrackedSet.insert_of_not_guard hguard]; rfl

/-- The workspaces agree where the accelerated one was written, and the other one is zero elsewhere. -/
structure Agree (size : ℕ) (s t : State V) : Prop where
  written : ∀ c, s.tracker.guard c = true → s.values c = t.values c
  unwritten : ∀ c < size, s.tracker.guard c = false → t.values c = 0

theorem Agree.store {size : ℕ} (h : Agree size s t) (hw : w.loc < size) : Agree size (s.trackedStore w) (t.store w) := by
  have hvalue : (s.trackedStore w).values w.loc = (t.store w).values w.loc := by
    rw [trackedStore]
    cases hguard : s.tracker.guard w.loc with
    | true => simp [State.store, h.written w.loc hguard]
    | false => simp [State.store, h.unwritten w.loc hw hguard]
  have hother : ∀ c, c ≠ w.loc → (s.trackedStore w).values c = s.values c ∧ (t.store w).values c = t.values c ∧
      (s.trackedStore w).tracker.guard c = s.tracker.guard c := by
    intro c hc
    rw [trackedStore]
    split_ifs <;> simp [State.store, hc]
  have hguard : (s.trackedStore w).tracker.guard w.loc = true := by
    rw [trackedStore]
    split_ifs with hset
    · simp
    · simpa [State.store] using hset
  refine ⟨fun c hc => ?_, fun c hlt hc => ?_⟩
  · by_cases hcw : c = w.loc
    · rw [hcw, hvalue]
    · obtain ⟨h₁, h₂, h₃⟩ := hother c hcw
      rw [h₁, h₂, h.written c (h₃ ▸ hc)]
  · have hcw : c ≠ w.loc := fun heq => by simp [heq, hguard] at hc
    obtain ⟨-, h₂, h₃⟩ := hother c hcw
    rw [h₂, h.unwritten c hlt (h₃ ▸ hc)]

theorem Agree.stores {size : ℕ} (h : Agree size s t) (hws : ∀ w ∈ ws, w.loc < size) :
    Agree size (ws.foldl trackedStore s) (ws.foldl State.store t) := by
  induction ws generalizing s t with
  | nil => exact h
  | cons w ws ih =>
    exact ih (h.store (hws w List.mem_cons_self)) fun w' hw' => hws w' (List.mem_cons_of_mem w hw')

theorem tracker_stores (s : State V) (ws : List (Write V)) :
    (ws.foldl trackedStore s).tracker = (ws.map Write.loc).foldl TrackedSet.insert s.tracker := by
  induction ws generalizing s with
  | nil => rfl
  | cons w ws ih => rw [List.foldl_cons, ih, trackedStore_tracker]; rfl

/-- A producer leaves the result as it is. -/
theorem result_trackedStores (s : State V) (ws : List (Write V)) :
    (ws.foldl trackedStore s).vals = s.vals ∧ (ws.foldl trackedStore s).crd = s.crd ∧
      (ws.foldl trackedStore s).segments = s.segments := by
  induction ws generalizing s with
  | nil => exact ⟨rfl, rfl, rfl⟩
  | cons w ws ih =>
    have hstore : (s.trackedStore w).vals = s.vals ∧ (s.trackedStore w).crd = s.crd ∧
        (s.trackedStore w).segments = s.segments := by
      rw [trackedStore]
      split_ifs <;> exact ⟨rfl, rfl, rfl⟩
    rw [List.foldl_cons]
    obtain ⟨h₁, h₂, h₃⟩ := ih (s.trackedStore w)
    exact ⟨h₁.trans hstore.1, h₂.trans hstore.2.1, h₃.trans hstore.2.2⟩

theorem result_stores (s : State V) (ws : List (Write V)) :
    (ws.foldl State.store s).vals = s.vals ∧ (ws.foldl State.store s).crd = s.crd ∧
      (ws.foldl State.store s).segments = s.segments ∧ (ws.foldl State.store s).tracker = s.tracker := by
  induction ws generalizing s with
  | nil => exact ⟨rfl, rfl, rfl, rfl⟩
  | cons w ws ih => exact ih (s.store w)

end State

/-! ### Consumers -/

namespace Where

variable {W : Where V} {dims : IndexVar → ℕ} {env : Env} {s t : State V} {cs : List ℕ}

theorem foldl_assign_zero (hzero : W.value 0 = 0) (envs : List Env) : envs.foldl (W.assign 0) 0 = 0 := by
  induction envs with
  | nil => rfl
  | cons env envs ih =>
    have hassign : W.assign 0 0 env = 0 := by simp [assign, hzero]
    rw [List.foldl_cons, hassign, ih]

theorem foldl_assign_add (hcompound : W.compound = true) (x : V) (vals : Path → V) (envs : List Env) :
    envs.foldl (W.assign x) vals = vals + envs.foldl (W.assign x) 0 := by
  induction envs generalizing vals with
  | nil => exact (add_zero vals).symm
  | cons env envs ih =>
    have hassign : W.assign x vals env = vals + W.assign x 0 env := by
      funext path
      rw [assign, assign, if_pos hcompound, if_pos hcompound]
      by_cases hpath : path = W.lhs.indexVars.map (W.recoverVariable env)
      · simp [hpath]
      · simp [hpath]
    rw [List.foldl_cons, List.foldl_cons, hassign, ih, ih (W.assign x 0 env), add_assoc]

/-- The body adds to the result, whatever it has. -/
theorem lowerForallBody_add (hadds : W.appends = true ∨ W.compound = true) (x : V) (vals : Path → V) :
    W.lowerForallBody dims env x vals = vals + W.lowerForallBody dims env x 0 := by
  rw [lowerForallBody, lowerForallBody]
  split_ifs with happends
  · rw [zero_add]
  · exact foldl_assign_add (hadds.resolve_left happends) x vals _

theorem lowerForallBody_zero (hzero : W.value 0 = 0) : W.lowerForallBody dims env 0 0 = 0 := by
  rw [lowerForallBody, foldl_assign_zero hzero]
  simp

/-- What an iteration adds to the result. -/
def contribution (W : Where V) (dims : IndexVar → ℕ) (env : Env) (values : ℕ → V) (c : ℕ) : Path → V :=
  if W.continues (Function.update env W.var c) then 0
  else W.lowerForallBody dims (Function.update env W.var c) (values c) 0

/-- The coordinates of a loop that are not left by the guards. -/
def visited (W : Where V) (env : Env) (cs : List ℕ) : List ℕ :=
  cs.filter fun c => !W.continues (Function.update env W.var c)

theorem iteration_eq (hadds : W.appends = true ∨ W.compound = true) (c : ℕ) : W.iteration dims env s c =
    { s with
      vals := s.vals + W.contribution dims env s.values c
      crd := if W.appends then s.crd ++ W.visited env [c] else s.crd } := by
  rw [iteration, contribution, visited, List.filter_singleton]
  cases hcontinues : W.continues (Function.update env W.var c) with
  | true => simp
  | false => simp [lowerForallBody_add hadds (s.values c) s.vals]

theorem foldl_iteration (hadds : W.appends = true ∨ W.compound = true) : cs.foldl (W.iteration dims env) s =
    { s with
      vals := s.vals + (cs.map (W.contribution dims env s.values)).sum
      crd := if W.appends then s.crd ++ W.visited env cs else s.crd } := by
  induction cs generalizing s with
  | nil => simp [visited]
  | cons c cs ih =>
    rw [List.foldl_cons, ih, iteration_eq hadds]
    cases happends : W.appends with
    | true => simp [visited, List.filter_cons, add_assoc]; split_ifs <;> simp
    | false => simp [add_assoc]

theorem trackedIteration_eq (c : ℕ) : W.trackedIteration dims env s c =
    { W.iteration dims env s c with tracker := (W.visited env [c]).foldl TrackedSet.release s.tracker } := by
  rw [trackedIteration, iteration, visited, List.filter_singleton]
  cases hcontinues : W.continues (Function.update env W.var c) with
  | true => simp
  | false => simp

/-- The loop over the index list does what one over all coordinates would do with these, and resets their guards. -/
theorem foldl_trackedIteration : cs.foldl (W.trackedIteration dims env) s =
    { cs.foldl (W.iteration dims env) s with
      tracker := (W.visited env cs).foldl TrackedSet.release s.tracker } := by
  induction cs generalizing s with
  | nil => rfl
  | cons c cs ih =>
    have htracker : ∀ (cs : List ℕ) (s : State V) (t : TrackedSet ℕ),
        cs.foldl (W.iteration dims env) { s with tracker := t } =
          { cs.foldl (W.iteration dims env) s with tracker := t } := by
      intro cs
      induction cs with
      | nil => exact fun s t => rfl
      | cons c cs ih =>
        intro s t
        rw [List.foldl_cons, List.foldl_cons, ← ih]
        simp only [iteration]
        split_ifs <;> rfl
    rw [List.foldl_cons, ih, trackedIteration_eq, htracker, List.foldl_cons]
    simp only [visited, ← List.foldl_append, ← List.filter_append, List.singleton_append]

/-! ### Passes -/

/-- The index list has the coordinates of the workspace that are not zero, where both workspaces agree. -/
structure Lists (size : ℕ) (s t : State V) : Prop where
  nodup : s.tracker.list.Nodup
  lt : ∀ c ∈ s.tracker.list, c < size
  agree : ∀ c ∈ s.tracker.list, s.values c = t.values c
  unlisted : ∀ c < size, c ∉ s.tracker.list → t.values c = 0

/-- Coordinates that are not listed do not contribute. -/
theorem Lists.sum_contribution (h : Lists (dims W.var) s t) (hzero : W.value 0 = 0) (env : Env) :
    (s.tracker.list.map (W.contribution dims env s.values)).sum =
      ((List.range (dims W.var)).map (W.contribution dims env t.values)).sum := by
  have hagree : s.tracker.list.map (W.contribution dims env s.values) =
      s.tracker.list.map (W.contribution dims env t.values) :=
    List.map_congr_left fun c hc => by rw [contribution, contribution, h.agree c hc]
  rw [hagree, ← List.sum_toFinset _ h.nodup, ← List.sum_toFinset _ List.nodup_range]
  refine Finset.sum_subset (fun c hc => ?_) fun c hc hlist => ?_
  · rw [List.mem_toFinset] at hc ⊢
    exact List.mem_range.mpr (h.lt c hc)
  · rw [List.mem_toFinset] at hc hlist
    rw [contribution, h.unlisted c (List.mem_range.mp hc) hlist]
    split_ifs
    · rfl
    · exact lowerForallBody_zero hzero

theorem lowerForallDimension_eq (hadds : W.appends = true ∨ W.compound = true) (hcrd : s.crd = []) :
    W.lowerForallDimension dims env s =
      { s with
        vals := s.vals + ((List.range (dims W.var)).map (W.contribution dims env s.values)).sum
        segments :=
          if W.appends then s.segments ++ [W.visited env (List.range (dims W.var))] else s.segments } := by
  rw [lowerForallDimension, foldl_iteration hadds]
  cases W.appends with
  | true => simp [State.appendPositions, hcrd]
  | false => simp

theorem lowerForallDenseAcceleration_eq (hadds : W.appends = true ∨ W.compound = true) (hcrd : s.crd = []) :
    W.lowerForallDenseAcceleration dims env s =
      { s with
        vals := s.vals + (s.tracker.list.map (W.contribution dims env s.values)).sum
        tracker := (W.visited env s.tracker.list).foldl TrackedSet.release s.tracker
        segments := if W.appends then s.segments ++ [W.visited env s.tracker.list] else s.segments } := by
  rw [lowerForallDenseAcceleration, foldl_trackedIteration, foldl_iteration hadds]
  cases W.appends with
  | true => simp [State.appendPositions, hcrd]
  | false => simp

/-- The passes over the workspace, below the other loops of the consumer. -/
theorem passes_eq (hzero : W.value 0 = 0) (hadds : W.appends = true ∨ W.compound = true) (envs : List Env)
    (hlists : Lists (dims W.var) s t) (hvals : s.vals = t.vals) (hs : s.crd = []) (ht : t.crd = []) :
    (envs.foldl (fun s env => W.lowerForallDenseAcceleration dims env s) s).vals =
        (envs.foldl (fun t env => W.lowerForallDimension dims env t) t).vals ∧
      (envs.foldl (fun s env => W.lowerForallDenseAcceleration dims env s) s).crd = [] ∧
      (envs.foldl (fun t env => W.lowerForallDimension dims env t) t).crd = [] := by
  induction envs generalizing s t with
  | nil => exact ⟨hvals, hs, ht⟩
  | cons env envs ih =>
    rw [List.foldl_cons, List.foldl_cons, lowerForallDimension_eq hadds ht, lowerForallDenseAcceleration_eq hadds hs]
    have hlist : ((W.visited env s.tracker.list).foldl TrackedSet.release s.tracker).list = s.tracker.list :=
      TrackedSet.foldl_release_list _ s.tracker
    refine ih ⟨?_, ?_, ?_, ?_⟩ ?_ hs ht
    · rw [hlist]; exact hlists.nodup
    · rw [hlist]; exact hlists.lt
    · rw [hlist]; exact hlists.agree
    · rw [hlist]; exact hlists.unlisted
    · rw [hvals, hlists.sum_contribution hzero env]

/-- The guards that are still set after the passes are those of coordinates that no pass reached. -/
theorem passes_guard (hadds : W.appends = true ∨ W.compound = true) (envs : List Env) (hs : s.crd = []) (c : ℕ) :
    (envs.foldl (fun s env => W.lowerForallDenseAcceleration dims env s) s).tracker.guard c = true ↔
      s.tracker.guard c = true ∧ ∀ env ∈ envs, c ∉ W.visited env s.tracker.list := by
  induction envs generalizing s with
  | nil => simp
  | cons env envs ih =>
    rw [List.foldl_cons, lowerForallDenseAcceleration_eq hadds hs]
    refine (ih ?_).trans ?_
    · exact hs
    · simp only [TrackedSet.foldl_release_list, TrackedSet.foldl_release_guard, List.forall_mem_cons, and_assoc]

omit [Ring V] in
theorem visited_pairwise (hcs : cs.Pairwise (· < ·)) (env : Env) : (W.visited env cs).Pairwise (· < ·) := hcs.filter _

/-- Segments of a sorted index list are sorted. -/
theorem passes_segments (hadds : W.appends = true ∨ W.compound = true) (envs : List Env) (hs : s.crd = [])
    (hlist : W.appends = true → s.tracker.list.Pairwise (· < ·)) (hsorted : ∀ seg ∈ s.segments, seg.Pairwise (· < ·)) :
    ∀ seg ∈ (envs.foldl (fun s env => W.lowerForallDenseAcceleration dims env s) s).segments, seg.Pairwise (· < ·) := by
  induction envs generalizing s with
  | nil => exact hsorted
  | cons env envs ih =>
    rw [List.foldl_cons, lowerForallDenseAcceleration_eq hadds hs]
    refine ih hs ?_ ?_
    · simpa only [TrackedSet.foldl_release_list] using hlist
    · intro seg hseg
      split_ifs at hseg with happends
      · rcases List.mem_append.mp hseg with hseg | hseg
        · exact hsorted seg hseg
        · rw [List.mem_singleton.mp hseg]
          exact visited_pairwise (hlist happends) env
      · exact hsorted seg hseg

/-! ### Executions -/

/-- When the acceleration is invisible. -/
structure Fits (W : Where V) (sortAccelerator : Bool) : Prop where
  zero : W.value 0 = 0
  adds : W.appends = true ∨ W.compound = true
  sorted : W.appendsOrdered = true → sortAccelerator = true
  reached : ∀ env, (∀ v ∈ W.outer, env v = 0) → W.continues env = false

/-- The results agree, and the guards are reset. -/
structure Matches (W : Where V) (s t : State V) : Prop where
  vals : s.vals = t.vals
  closed : s.crd = [] ∧ t.crd = []
  reset : ∀ c, s.tracker.guard c = false
  ordered : W.appendsOrdered = true → ∀ seg ∈ s.segments, seg.Pairwise (· < ·)

/-- What the producer of an execution leaves to the consumer. -/
theorem lists_of_producer {size : ℕ} {x : Execution V} (hreset : ∀ c, s.tracker.guard c = false)
    (hx : ∀ w ∈ x.writes, w.loc < size) :
    Lists size (x.writes.foldl State.trackedStore s.declareIndexListSize)
        (x.writes.foldl State.store (t.zeroInit size)) ∧
      (x.writes.foldl State.trackedStore s.declareIndexListSize).tracker.Valid := by
  have hempty : s.declareIndexListSize.tracker.Valid := TrackedSet.valid_empty hreset rfl
  have hagree : State.Agree size s.declareIndexListSize (t.zeroInit size) := by
    refine ⟨fun c hc => ?_, fun c hc _ => if_pos hc⟩
    rw [State.declareIndexListSize, hreset c] at hc
    cases hc
  have hproduced := hagree.stores hx
  have htracker := State.tracker_stores s.declareIndexListSize x.writes
  have hvalid : (x.writes.foldl State.trackedStore s.declareIndexListSize).tracker.Valid := by
    rw [htracker]
    exact hempty.foldl_insert
  refine ⟨⟨hvalid.nodup, fun c hc => ?_, fun c hc => ?_, fun c hlt hc => ?_⟩, hvalid⟩
  · rw [htracker, hempty.mem_foldl_insert] at hc
    obtain ⟨w, hw, rfl⟩ := List.mem_map.mp (hc.resolve_left (List.not_mem_nil))
    exact hx w hw
  · exact hproduced.written c ((hvalid.guard_iff c).mpr hc)
  · refine hproduced.unwritten c hlt ?_
    rw [← Bool.not_eq_true, hvalid.guard_iff c]
    exact hc

theorem Lists.sortIndexList {size : ℕ} (h : Lists size s t) : Lists size s.sortIndexList t := by
  have hmem : ∀ c, c ∈ s.sortIndexList.tracker.list ↔ c ∈ s.tracker.list := fun c =>
    (List.mergeSort_perm s.tracker.list _).mem_iff
  refine ⟨(List.mergeSort_perm s.tracker.list _).nodup_iff.mpr h.nodup, fun c hc => ?_, fun c hc => ?_, fun c hlt hc => ?_⟩
  · exact h.lt c ((hmem c).mp hc)
  · exact h.agree c ((hmem c).mp hc)
  · exact h.unlisted c hlt fun hlist => hc ((hmem c).mpr hlist)

omit [Ring V] in
theorem sortIndexList_pairwise (hnodup : s.tracker.list.Nodup) : s.sortIndexList.tracker.list.Pairwise (· < ·) := by
  have hle : s.tracker.list.mergeSort.Pairwise fun a b => decide (a ≤ b) = true :=
    List.pairwise_mergeSort (fun a b c => by simpa using Nat.le_trans) (fun a b => by simpa using Nat.le_total a b) _
  have hsorted : s.sortIndexList.tracker.list.Pairwise (· ≤ ·) := by simpa [State.sortIndexList] using hle
  have hdistinct : s.sortIndexList.tracker.list.Nodup :=
    (List.mergeSort_perm s.tracker.list _).nodup_iff.mpr hnodup
  exact hsorted.imp₂ (fun a b hle hne => lt_of_le_of_ne hle hne) hdistinct

/-- An execution of the accelerated statement does what one does whose workspace is zeroed. -/
theorem Matches.execute {sortAccelerator : Bool} {x : Execution V} (h : Matches W s t) (hfits : W.Fits sortAccelerator)
    (hpos : ∀ v, 0 < dims v) (hx : ∀ w ∈ x.writes, w.loc < dims W.var) :
    Matches W (W.lowerWhereAccelerated dims sortAccelerator s x) (W.lowerWhereZeroed dims t x) := by
  obtain ⟨hproduced, hvalid⟩ := lists_of_producer (t := t) h.reset hx
  obtain ⟨hs₁, hs₂, hs₃⟩ := State.result_trackedStores s.declareIndexListSize x.writes
  obtain ⟨ht₁, ht₂, -, -⟩ := State.result_stores (t.zeroInit (dims W.var)) x.writes
  rw [lowerWhereAccelerated, lowerWhereZeroed]
  generalize x.writes.foldl State.trackedStore s.declareIndexListSize = produced at *
  generalize x.writes.foldl State.store (t.zeroInit (dims W.var)) = produced' at *
  -- Sorting does not change what is listed.
  obtain ⟨consumed, hconsumed, hlists, hguard, hresult, hsorted⟩ : ∃ consumed : State V,
      (if sortAccelerator then produced.sortIndexList else produced) = consumed ∧
        Lists (dims W.var) consumed produced' ∧ (∀ c, consumed.tracker.guard c = true ↔ c ∈ consumed.tracker.list) ∧
        (consumed.vals = produced.vals ∧ consumed.crd = produced.crd ∧ consumed.segments = produced.segments) ∧
        (sortAccelerator = true → consumed.tracker.list.Pairwise (· < ·)) := by
    refine ⟨_, rfl, ?_⟩
    cases sortAccelerator with
    | true =>
      refine ⟨hproduced.sortIndexList, fun c => ?_, ⟨rfl, rfl, rfl⟩, fun _ => sortIndexList_pairwise hproduced.nodup⟩
      exact (hvalid.guard_iff c).trans (List.mergeSort_perm produced.tracker.list _).mem_iff.symm
    | false => exact ⟨hproduced, hvalid.guard_iff, ⟨rfl, rfl, rfl⟩, fun hsort => by cases hsort⟩
  have hvals : consumed.vals = produced'.vals := by rw [hresult.1, hs₁, ht₁]; exact h.vals
  have hcrd : consumed.crd = [] := by rw [hresult.2.1, hs₂]; exact h.closed.1
  have hcrd' : produced'.crd = [] := by rw [ht₂]; exact h.closed.2
  simp only [hconsumed]
  obtain ⟨hpasses, hclosed⟩ := passes_eq hfits.zero hfits.adds (iterations dims W.outer x.env) hlists hvals hcrd hcrd'
  refine ⟨hpasses, hclosed, fun c => ?_, fun hordered => ?_⟩
  · rw [← Bool.not_eq_true, passes_guard hfits.adds _ hcrd]
    rintro ⟨hset, hmissed⟩
    obtain ⟨env, henv, hzero⟩ := exists_first_iteration hpos W.outer x.env
    refine hmissed env henv (List.mem_filter.mpr ⟨(hguard c).mp hset, ?_⟩)
    have hreached := hfits.reached (Function.update env W.var c) fun v hv => by
      have hne : v ≠ W.var := fun heq =>
        (List.nodup_append.mp W.distinct).2.2 v hv W.var List.mem_cons_self heq
      rw [Function.update_of_ne hne, hzero v hv]
    simp [hreached]
  · refine passes_segments hfits.adds _ hcrd (fun _ => hsorted (hfits.sorted hordered)) ?_
    rw [hresult.2.2, hs₃]
    exact h.ordered hordered

theorem Matches.executions {sortAccelerator : Bool} {xs : List (Execution V)} (h : Matches W s t)
    (hfits : W.Fits sortAccelerator) (hpos : ∀ v, 0 < dims v) (hxs : ∀ x ∈ xs, ∀ w ∈ x.writes, w.loc < dims W.var) :
    Matches W (xs.foldl (W.lowerWhereAccelerated dims sortAccelerator) s) (xs.foldl (W.lowerWhereZeroed dims) t) := by
  induction xs generalizing s t with
  | nil => exact h
  | cons x xs ih =>
    exact ih (h.execute hfits hpos (hxs x List.mem_cons_self)) fun x' hx' => hxs x' (List.mem_cons_of_mem x hx')

/-! ### Runs -/

end Where

/-- The allocated arrays: the bits are cleared, the values are not. -/
def State.allocated (values : ℕ → V) (vals : Path → V) : State V := ⟨values, ⟨fun _ => false, []⟩, vals, [], []⟩

/-- All guards are false, and the index list of the next execution is empty. -/
def State.Idle (s : State V) : Prop :=
  (∀ c, s.tracker.guard c = false) ∧ s.declareIndexListSize.tracker.list = []

namespace Where

variable {W : Where V} {dims : IndexVar → ℕ} {env : Env} {values : ℕ → V} {vals : Path → V}

/-- The lowered statement computes, however often it is executed, what it would with a workspace that is zeroed. -/
def Invisible (W : Where V) (shouldUseCUDACodegen : Bool) : Prop :=
  ∀ (dims : IndexVar → ℕ) (values : ℕ → V) (vals : Path → V) (xs : List (Execution V)), (∀ v, 0 < dims v) →
    (∀ x ∈ xs, ∀ w ∈ x.writes, w.loc < dims W.var) →
    let s := xs.foldl (W.lowerWhere dims shouldUseCUDACodegen) (State.allocated values vals)
    let t := xs.foldl (W.lowerWhereZeroed dims) (State.allocated values vals)
    s.vals = t.vals ∧ (W.appendsOrdered = true → ∀ seg ∈ s.segments, seg.Pairwise (· < ·)) ∧ s.Idle

theorem Fits.invisible {sortAccelerator : Bool} (hfits : W.Fits sortAccelerator) (hpos : ∀ v, 0 < dims v)
    {xs : List (Execution V)} (hxs : ∀ x ∈ xs, ∀ w ∈ x.writes, w.loc < dims W.var) :
    Matches W (xs.foldl (W.lowerWhereAccelerated dims sortAccelerator) (State.allocated values vals))
      (xs.foldl (W.lowerWhereZeroed dims) (State.allocated values vals)) :=
  Matches.executions ⟨rfl, ⟨rfl, rfl⟩, fun _ => rfl, fun _ seg hseg => by cases hseg⟩ hfits hpos hxs

/-! ### Runs that are not invisible -/

omit [Ring V] in
theorem iterations_outer (hdims : ∀ v, v ≠ W.var → dims v = 1) (henv : ∀ v ∈ W.outer, env v = 0) :
    iterations dims W.outer env = [env] :=
  iterations_of_one (fun v hv => hdims v fun heq =>
    (List.nodup_append.mp W.distinct).2.2 v hv W.var List.mem_cons_self heq) henv

/-- A coordinate that the guards of the recovered variables leave keeps its guard. -/
theorem guard_of_continues {sortAccelerator : Bool} (hdims : ∀ v, v ≠ W.var → dims v = 1)
    (henv : ∀ v ∈ W.outer, env v = 0) (hcontinues : W.continues env = true) :
    (W.lowerWhereAccelerated dims sortAccelerator (State.allocated values vals)
      ⟨env, [⟨false, env W.var, 0⟩]⟩).tracker.guard (env W.var) = true := by
  rw [lowerWhereAccelerated, iterations_outer hdims henv]
  have hpass : ∀ s : State V, s.tracker.list = [env W.var] →
      (W.lowerForallDenseAcceleration dims env s).tracker = s.tracker := by
    intro s hlist
    rw [lowerForallDenseAcceleration, hlist, List.foldl_cons, List.foldl_nil, trackedIteration,
      Function.update_eq_self, if_pos hcontinues]
    split_ifs <;> rfl
  cases sortAccelerator with
  | true =>
    rw [List.foldl_cons, List.foldl_nil, hpass _ (by simp [State.allocated, State.trackedStore,
      State.declareIndexListSize, State.sortIndexList])]
    simp [State.allocated, State.trackedStore, State.declareIndexListSize, State.sortIndexList]
  | false =>
    rw [List.foldl_cons, List.foldl_nil, hpass _ (by simp [State.allocated, State.trackedStore,
      State.declareIndexListSize])]
    simp [State.allocated, State.trackedStore, State.declareIndexListSize]

/-- Without writes the accelerated statement leaves the values of the result. -/
theorem vals_of_no_writes (sortAccelerator : Bool) (s : State V) (env : Env) :
    (W.lowerWhereAccelerated dims sortAccelerator s ⟨env, []⟩).vals = s.vals := by
  have hpasses : ∀ (envs : List Env) (s : State V), s.tracker.list = [] →
      (envs.foldl (fun s env => W.lowerForallDenseAcceleration dims env s) s).vals = s.vals := by
    intro envs
    induction envs with
    | nil => exact fun s _ => rfl
    | cons env envs ih =>
      intro s hlist
      have hpass : (W.lowerForallDenseAcceleration dims env s).vals = s.vals ∧
          (W.lowerForallDenseAcceleration dims env s).tracker.list = [] := by
        rw [lowerForallDenseAcceleration, hlist, List.foldl_nil]
        split_ifs <;> exact ⟨rfl, hlist⟩
      rw [List.foldl_cons, ih _ hpass.2, hpass.1]
  rw [lowerWhereAccelerated]
  cases sortAccelerator with
  | true => exact hpasses _ _ (by simp [State.declareIndexListSize, State.sortIndexList])
  | false => exact hpasses _ _ rfl

/-- A workspace of one element that is not written is zero. -/
theorem vals_zeroed (hreached : W.continues (fun _ => 0) = false) :
    (W.lowerWhereZeroed (fun _ => 1) (State.allocated values vals) ⟨fun _ => 0, []⟩).vals =
      if W.appends then vals + W.assign 0 0 (fun _ => 0) else W.assign 0 vals fun _ => 0 := by
  have hupdate : Function.update (fun _ : IndexVar => 0) W.var 0 = fun _ => 0 := Function.update_eq_self W.var _
  have hinner : iterations (fun _ => 1) W.inner (fun _ => 0) = [fun _ => 0] :=
    iterations_of_one (fun _ _ => rfl) fun _ _ => rfl
  rw [lowerWhereZeroed, iterations_outer (fun _ _ => rfl) fun _ _ => rfl]
  simp only [List.foldl_cons, List.foldl_nil, lowerForallDimension, List.range_one, iteration, hupdate, hreached,
    lowerForallBody, hinner, State.zeroInit, State.allocated]
  cases W.appends with
  | true => simp [State.appendPositions]
  | false => simp

/-- An index list that is not sorted is appended as it is. -/
theorem segments_of_not_sorted (hreached : ∀ env, (∀ v ∈ W.outer, env v = 0) → W.continues env = false)
    (happends : W.appends = true) (hdims : ∀ v, v ≠ W.var → dims v = 1) :
    [1, 0] ∈ (W.lowerWhereAccelerated dims false (State.allocated values vals)
      ⟨fun _ => 0, [⟨false, 1, 0⟩, ⟨false, 0, 0⟩]⟩).segments := by
  rw [lowerWhereAccelerated, iterations_outer hdims fun _ _ => rfl]
  have hvisited : W.visited (fun _ => 0) [1, 0] = [1, 0] := by
    refine List.filter_eq_self.mpr fun c _ => ?_
    have hcontinues := hreached (Function.update (fun _ => 0) W.var c) fun v hv => by
      have hne : v ≠ W.var := fun heq =>
        (List.nodup_append.mp W.distinct).2.2 v hv W.var List.mem_cons_self heq
      rw [Function.update_of_ne hne]
    simp [hcontinues]
  have hpass : ∀ s : State V, s.tracker.list = [1, 0] → s.crd = [] →
      [1, 0] ∈ (W.lowerForallDenseAcceleration dims (fun _ => 0) s).segments := by
    intro s hlist hcrd
    rw [lowerForallDenseAcceleration_eq (Or.inl happends) hcrd, hlist, hvisited, if_pos happends]
    exact List.mem_append_right _ (List.mem_singleton_self _)
  exact hpass _ (by simp [State.allocated, State.trackedStore, State.declareIndexListSize])
    (State.result_trackedStores _ _).2.1

/-- When the acceleration is invisible: what the consumer computes of zero is zero, it adds to the result, it appends
    sorted coordinates to a level that is ordered, and no coordinate is left by the guards of its first pass. -/
theorem invisible_iff (W : Where V) [Nontrivial V] (shouldUseCUDACodegen : Bool)
    (haccelerate : (W.canAccelerateDenseTemp shouldUseCUDACodegen).1 = true) :
    W.Invisible shouldUseCUDACodegen ↔ W.Fits (W.canAccelerateDenseTemp shouldUseCUDACodegen).2 := by
  have hlower : ∀ dims, W.lowerWhere dims shouldUseCUDACodegen =
      W.lowerWhereAccelerated dims (W.canAccelerateDenseTemp shouldUseCUDACodegen).2 := by
    intro dims
    funext s x
    exact if_pos haccelerate
  generalize (W.canAccelerateDenseTemp shouldUseCUDACodegen).2 = sortAccelerator at *
  constructor
  · intro h
    have hreached : ∀ env, (∀ v ∈ W.outer, env v = 0) → W.continues env = false := by
      intro env henv
      by_contra hcontinues
      rw [Bool.not_eq_false] at hcontinues
      have hdims : ∀ v, v ≠ W.var → (if v = W.var then env W.var + 1 else 1) = 1 := fun v hv => if_neg hv
      obtain ⟨-, -, hidle, -⟩ := h (fun v => if v = W.var then env W.var + 1 else 1) (fun _ => 0) (fun _ => 0)
        [⟨env, [⟨false, env W.var, 0⟩]⟩] (fun v => by split_ifs <;> omega) (by simp)
      rw [hlower, List.foldl_cons, List.foldl_nil] at hidle
      exact absurd (guard_of_continues hdims henv hcontinues) (by rw [hidle (env W.var)]; simp)
    have hunwritten : ∀ vals : Path → V,
        vals = if W.appends then vals + W.assign 0 0 (fun _ => 0) else W.assign 0 vals fun _ => 0 := by
      intro vals
      obtain ⟨hvals, -⟩ := h (fun _ => 1) (fun _ => 0) vals [⟨fun _ => 0, []⟩] (fun _ => Nat.one_pos) (by simp)
      rwa [hlower, List.foldl_cons, List.foldl_nil, List.foldl_cons, List.foldl_nil, vals_of_no_writes,
        vals_zeroed (hreached _ fun _ _ => rfl)] at hvals
    have hadds : W.appends = true ∨ W.compound = true := by
      by_contra hadds
      rw [not_or, Bool.not_eq_true, Bool.not_eq_true] at hadds
      have hvals := congrFun (hunwritten fun _ => W.value 0 + 1) (W.lhs.indexVars.map (W.recoverVariable fun _ => 0))
      simp [hadds.1, hadds.2, assign] at hvals
    refine ⟨?_, hadds, fun hordered => ?_, hreached⟩
    · have hvals := congrFun (hunwritten 0) (W.lhs.indexVars.map (W.recoverVariable fun _ => 0))
      cases happends : W.appends with
      | true => simpa [happends, assign] using hvals.symm
      | false => simpa [happends, assign, hadds.resolve_left (by simp [happends])] using hvals.symm
    · by_contra hsort
      rw [Bool.not_eq_true] at hsort
      have happends : W.appends = true := by
        rw [appendsOrdered, Option.any_eq_true] at hordered
        obtain ⟨level, hlevel, hboth⟩ := hordered
        rw [appends, Option.any_eq_true]
        exact ⟨level, hlevel, (Bool.and_eq_true_iff.mp hboth).1⟩
      obtain ⟨-, hsegments, -⟩ := h (fun v => if v = W.var then 2 else 1) (fun _ => 0) (fun _ => 0)
        [⟨fun _ => 0, [⟨false, 1, 0⟩, ⟨false, 0, 0⟩]⟩] (fun v => by split_ifs <;> omega) (by simp)
      rw [hlower, hsort, List.foldl_cons, List.foldl_nil] at hsegments
      have hdecreasing := hsegments hordered [1, 0]
        (segments_of_not_sorted hreached happends fun v hv => if_neg hv)
      simp at hdecreasing
  · intro hfits dims values vals xs hpos hxs
    have hmatches : Matches W (xs.foldl (W.lowerWhereAccelerated dims sortAccelerator) (State.allocated values vals))
        (xs.foldl (W.lowerWhereZeroed dims) (State.allocated values vals)) := hfits.invisible hpos hxs
    rw [hlower]
    exact ⟨hmatches.vals, hmatches.ordered, hmatches.reset, rfl⟩

/-- A consumer that computes each element of a row, whose level is compressed, from that of the workspace. -/
def row (rhs : IndexExpr ℤ) : Where ℤ where
  temporary := ⟨[.Dense], [0], List.Perm.refl _⟩
  outer := []
  var := 1
  inner := []
  distinct := List.nodup_singleton 1
  lhs := ⟨⟨[.Dense, .compressed false true], [0, 1], List.Perm.refl _⟩, [0, 1], rfl⟩
  compound := false
  rhs := rhs
  operand := fun _ => ⟨⟨[.Dense], [0], List.Perm.refl _⟩, [1], rfl⟩
  iterates := fun _ _ => rfl
  isDerivedFrom := fun _ _ => false
  recoverVariable := fun env => env
  continues := fun _ => false

theorem invisible_row : (row (.access 0)).Invisible false :=
  (invisible_iff (row (.access 0)) false (by decide)).mpr
    ⟨rfl, Or.inl (by decide), fun _ => by decide, fun _ _ => rfl⟩

/-- A consumer that adds a literal to the element of the workspace has a value where nothing is listed. -/
theorem visible_row_of_literal : ¬∀ (W : Where ℤ) (shouldUseCUDACodegen : Bool),
    (W.canAccelerateDenseTemp shouldUseCUDACodegen).1 = true → W.Invisible shouldUseCUDACodegen := by
  intro h
  obtain ⟨hvals, -⟩ := h (row (.add (.access 0) (.literal 1))) false (by decide) (fun _ => 1) (fun _ => 0) (fun _ => 0)
    [⟨fun _ => 0, []⟩] (fun _ => Nat.one_pos) (by simp)
  have hchosen : (row (.add (.access 0) (.literal 1))).canAccelerateDenseTemp false = (true, true) := by decide
  have hlower : (row (.add (.access 0) (.literal 1))).lowerWhere (fun _ => 1) false =
      (row (.add (.access 0) (.literal 1))).lowerWhereAccelerated (fun _ => 1) true := by
    funext s x
    rw [lowerWhere, hchosen]
    rfl
  rw [hlower, List.foldl_cons, List.foldl_nil, List.foldl_cons, List.foldl_nil, vals_of_no_writes,
    vals_zeroed rfl] at hvals
  have happends : (row (.add (.access 0) (.literal 1))).appends = true := by decide
  have hrow := congrFun hvals [0, 0]
  rw [happends] at hrow
  simp [State.allocated, assign, value, row, IndexExpr.eval] at hrow

end Where

end Workspace
end Taco
