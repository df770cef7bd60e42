import Taco.IndexNotation.Parallelize

/-! Which marked loops can be executed in any order. -/

namespace Taco
namespace Concrete
namespace Parallelize

open Workspace (Format ModeFormat)

variable {V : Type} {g : ProvenanceGraph} {i : IndexVar} {sc : Scopes} {s : IndexStmt V}

/-! ### The check -/

/-- The rewriter marks the loops of the statement, none of which is over a reduction variable. -/
theorem rewrite_some {preconditions : List IndexVar → IndexVar → IndexStmt V → Bool} {reductionIndexVars : List IndexVar}
    {defined : List IndexVar} {s' : IndexStmt V}
    (h : (rewrite preconditions reductionIndexVars i defined s).1 = some s') :
    s' = s ∧ (markedLoops g i sc s ≠ [] → i ∉ reductionIndexVars) := by
  induction s generalizing defined sc s' with
  | assignment lhs rhs compound =>
    cases h
    exact ⟨rfl, fun h => absurd rfl h⟩
  | «forall» j stmt ih =>
    rw [rewrite] at h
    rw [markedLoops]
    by_cases hj : j = i
    · rw [if_pos hj] at h
      split_ifs at h with hreduction hpre
      cases h
      exact ⟨hj ▸ rfl, fun _ => hreduction⟩
    · rw [if_neg hj] at h
      rw [if_neg hj]
      obtain ⟨stmt', hstmt, rfl⟩ := Option.map_eq_some_iff.mp h
      obtain ⟨rfl, hmarked⟩ := @ih (sc.enter g j) _ _ hstmt
      exact ⟨rfl, hmarked⟩
  | «where» consumer producer ihc ihp =>
    obtain ⟨producer', hproducer, h⟩ := Option.bind_eq_some_iff.mp h
    obtain ⟨consumer', hconsumer, rfl⟩ := Option.map_eq_some_iff.mp h
    obtain ⟨hproducer', hp⟩ := @ihp sc.toProducer _ _ hproducer
    obtain ⟨hconsumer', hc⟩ := @ihc sc.toConsumer _ _ hconsumer
    refine ⟨by rw [hproducer', hconsumer'], fun hne => ?_⟩
    rw [markedLoops, Ne, List.append_eq_nil_iff, not_and_or] at hne
    exact hne.elim hp hc

theorem resultAssignment_lhs : (resultAssignment g sc s).2.1 = s.result := by
  induction s generalizing sc with
  | assignment lhs rhs compound => rfl
  | «forall» j stmt ih => exact ih
  | «where» consumer producer ihc _ => exact ihc

/-- The assignment to the result is one of the assignments whose reduction variables are collected. -/
theorem resultAssignment_reductionVars :
    assignmentReductionVars (resultAssignment g sc s).1 (resultAssignment g sc s).2.1 (resultAssignment g sc s).2.2 ⊆
      getReductionVars g sc s := by
  induction s generalizing sc with
  | assignment lhs rhs compound => exact List.Subset.refl _
  | «forall» j stmt ih => exact ih
  | «where» consumer producer ihc _ => exact List.subset_append_of_subset_right _ ihc

theorem markedLoop_reductionVars {loop : MarkedLoop V} (hloop : loop ∈ markedLoops g i sc s) :
    getReductionVars g loop.scopes loop.body ⊆ getReductionVars g sc s := by
  induction s generalizing sc with
  | assignment lhs rhs compound => cases hloop
  | «forall» j stmt ih =>
    rw [markedLoops] at hloop
    split_ifs at hloop with hj
    · subst hj
      rw [List.mem_singleton.mp hloop]
      exact List.Subset.refl _
    · exact ih hloop
  | «where» consumer producer ihc ihp =>
    rcases List.mem_append.mp hloop with hloop | hloop
    · exact List.subset_append_of_subset_left _ (ihp hloop)
    · exact List.subset_append_of_subset_right _ (ihc hloop)

/-- A variable that the check sees at the result assignment of a marked loop: it is used on the right-hand side, or bound
    around the where statement whose consumer has the assignment, but not around one whose producer has it; some access
    of the statement has it, and the loop is derived from it. -/
structure Seen (g : ProvenanceGraph) (i : IndexVar) (s : IndexStmt V) (sc : Scopes) (rhs : IndexExpr V) (u : IndexVar) :
    Prop where
  used : (∃ a ∈ rhs.accesses, u ∈ a.indexVars) ∨ u ∈ sc.consumerScopedVars
  free : u ∉ sc.producerScopedVars
  accessed : ∃ a ∈ s.accesses, u ∈ a.indexVars
  descendant : i ∈ g.getFullyDerivedDescendants u

/-- The check refuses a loop if the left-hand side does not have a variable that it sees. -/
theorem Seen.mem_reductionIndexVars {loop : MarkedLoop V} (hloop : loop ∈ markedLoops g i .empty s) {u : IndexVar}
    {lhs : Access} {rhs : IndexExpr V} (hassign : resultAssignment g loop.scopes loop.body = (sc, lhs, rhs))
    (h : Seen g i s sc rhs u) (hlhs : u ∉ lhs.indexVars) : i ∈ reductionIndexVars g s := by
  have hreduced : u ∈ assignmentReductionVars sc lhs rhs := by
    refine List.mem_eraseDups.mpr (List.mem_filter.mpr ⟨?_, ?_⟩)
    · exact List.mem_append.mpr (h.used.imp List.mem_flatMap.mpr id)
    · exact decide_eq_true (List.mem_append.not.mpr (not_or.mpr ⟨hlhs, h.free⟩))
  have hcollected : u ∈ getReductionVars g loop.scopes loop.body := by
    refine resultAssignment_reductionVars ?_
    rw [hassign]
    exact hreduced
  obtain ⟨a, ha, hu⟩ := h.accessed
  refine List.mem_flatMap.mpr ⟨u, List.mem_filter.mpr ⟨?_, ?_⟩, h.descendant⟩
  · exact List.mem_eraseDups.mpr (List.mem_flatMap.mpr ⟨a, ha, hu⟩)
  · exact decide_eq_true (markedLoop_reductionVars hloop hcollected)

/-! ### Orders of execution -/

section Orders

variable [Ring V] {space : Space}

/-- Marked loops that do not depend on the order of their iterations make a statement that does not. -/
theorem execOrdered_eq {order : Env → Store V → List ℕ}
    (horder : ∀ env σ, (order env σ).Perm (List.range (space.dims i)))
    (hloops : ∀ loop ∈ markedLoops g i sc s, ∀ env σ (order : List ℕ), order.Perm (List.range (space.dims i)) →
      order.foldl (loop.body.iteration space i env) σ = (IndexStmt.forall i loop.body).exec space env σ)
    (env : Env) (σ : Store V) : execOrdered space i order s env σ = s.exec space env σ := by
  induction s generalizing sc env σ with
  | assignment lhs rhs compound => rfl
  | «forall» j stmt ih =>
    rw [markedLoops] at hloops
    rw [execOrdered]
    split_ifs at hloops ⊢ with hj
    · subst hj
      exact hloops _ (List.mem_singleton_self _) env σ _ (horder env σ)
    · rw [IndexStmt.exec_forall]
      refine congrArg (fun f => List.foldl f σ _) (funext fun σ => funext fun c => ?_)
      rw [IndexStmt.iteration]
      cases space.enter j c env with
      | none => rfl
      | some env => exact ih hloops env σ
  | «where» consumer producer ihc ihp =>
    rw [execOrdered, IndexStmt.exec, ihp fun loop hloop => hloops loop (List.mem_append_left _ hloop),
      ihc fun loop hloop => hloops loop (List.mem_append_right _ hloop)]

omit [Ring V] in
/-- The iterations of a marked loop write different components if each variable of the loop separates them. -/
theorem writesApart {loop : MarkedLoop V} (hloop : loop ∈ markedLoops g i .empty s) (hvisits : VisitsOnce space g i s)
    (hseparates : ∀ u ∈ g.getUnderivedAncestors i, loop.body.result.Separates space.dims u) :
    loop.body.WritesApart space i := by
  intro env c c' hc hc' hne e he e' he'
  obtain ⟨u, hu, hlt, hlt', hval⟩ := hvisits loop hloop env c c' hc hc' hne e he e' he'
  exact (hseparates u hu).coords_ne hlt hlt' hval

end Orders

/-! ### Loops that are not derived -/

section Underived

variable {dims : IndexVar → ℕ} {bound : List IndexVar} {body : IndexStmt V} {env env' e : Env}

/-- A variable that is bound around a statement is not bound again in it. -/
theorem resultEnvs_bound (hbinds : body.bindsOnce bound = true) (hi : i ∈ bound)
    (he : e ∈ body.resultEnvs (.underived dims) env) : e i = env i := by
  induction body generalizing bound env with
  | assignment lhs rhs compound => rw [List.mem_singleton.mp he]
  | «forall» j stmt ih =>
    rw [IndexStmt.bindsOnce, Bool.and_eq_true, decide_eq_true_eq] at hbinds
    rw [IndexStmt.resultEnvs_forall] at he
    obtain ⟨c, -, he⟩ := List.mem_flatMap.mp he
    have hne : i ≠ j := fun hij => hbinds.1 (hij ▸ hi)
    rw [ih hbinds.2 (List.mem_cons_of_mem j hi) he, Function.update_of_ne hne]
  | «where» consumer producer ihc _ =>
    rw [IndexStmt.bindsOnce, Bool.and_eq_true] at hbinds
    exact ihc hbinds.1 hi he

theorem markedLoop_bindsOnce (hbinds : s.bindsOnce bound = true) {loop : MarkedLoop V}
    (hloop : loop ∈ markedLoops g i sc s) : ∃ bound, i ∈ bound ∧ loop.body.bindsOnce bound = true := by
  induction s generalizing sc bound with
  | assignment lhs rhs compound => cases hloop
  | «forall» j stmt ih =>
    rw [IndexStmt.bindsOnce, Bool.and_eq_true] at hbinds
    rw [markedLoops] at hloop
    split_ifs at hloop with hj
    · rw [List.mem_singleton.mp hloop]
      exact ⟨j :: bound, hj ▸ List.mem_cons_self, hbinds.2⟩
    · exact ih hbinds.2 hloop
  | «where» consumer producer ihc ihp =>
    rw [IndexStmt.bindsOnce, Bool.and_eq_true] at hbinds
    rcases List.mem_append.mp hloop with hloop | hloop
    · exact ihp hbinds.2 hloop
    · exact ihc hbinds.1 hloop

/-- Loops that are not derived visit each point once. -/
theorem visitsOnce_underived (hbinds : s.bindsOnce [] = true) : VisitsOnce (.underived dims) ⟨[]⟩ i s := by
  intro loop hloop env c c' hc hc' hne e he e' he'
  obtain ⟨bound, hi, hbody⟩ := markedLoop_bindsOnce hbinds hloop
  have hval := resultEnvs_bound hbody hi he
  have hval' := resultEnvs_bound hbody hi he'
  rw [Function.update_self] at hval hval'
  exact ⟨i, List.mem_singleton_self i, hval ▸ hc, hval' ▸ hc', by rwa [hval, hval']⟩

/-- If no loop is empty, a statement assigns to its result with values that differ only in a variable around it. -/
theorem exists_resultEnvs (hpos : ∀ j, 0 < dims j) (hbinds : body.bindsOnce bound = true) (hi : i ∈ bound)
    (henv : ∀ v ≠ i, env v = env' v) :
    ∃ e ∈ body.resultEnvs (.underived dims) env, ∃ e' ∈ body.resultEnvs (.underived dims) env', ∀ v ≠ i, e v = e' v := by
  induction body generalizing bound env env' with
  | assignment lhs rhs compound => exact ⟨env, List.mem_singleton_self _, env', List.mem_singleton_self _, henv⟩
  | «forall» j stmt ih =>
    rw [IndexStmt.bindsOnce, Bool.and_eq_true] at hbinds
    have henv' : ∀ v ≠ i, Function.update env j 0 v = Function.update env' j 0 v := by
      intro v hv
      by_cases hvj : v = j
      · rw [hvj, Function.update_self, Function.update_self]
      · rw [Function.update_of_ne hvj, Function.update_of_ne hvj, henv v hv]
    obtain ⟨e, he, e', he', heq⟩ := ih hbinds.2 (List.mem_cons_of_mem j hi) henv'
    have hzero : 0 ∈ List.range (dims j) := List.mem_range.mpr (hpos j)
    exact ⟨e, List.mem_flatMap.mpr ⟨0, hzero, he⟩, e', List.mem_flatMap.mpr ⟨0, hzero, he'⟩, heq⟩
  | «where» consumer producer ihc _ =>
    rw [IndexStmt.bindsOnce, Bool.and_eq_true] at hbinds
    exact ihc hbinds.1 hi henv

theorem separates_of_writesApart (hpos : ∀ j, 0 < dims j) (hbinds : body.bindsOnce bound = true) (hi : i ∈ bound)
    (hapart : body.WritesApart (.underived dims) i) : body.result.Separates dims i := by
  intro c hc c' hc' hne
  have henv : ∀ v ≠ i, Function.update (fun _ => 0) i c v = Function.update (fun _ => 0) i c' v :=
    fun v hv => by rw [Function.update_of_ne hv, Function.update_of_ne hv]
  obtain ⟨e, he, e', he', heq⟩ := exists_resultEnvs hpos hbinds hi henv
  have hval := resultEnvs_bound hbinds hi he
  have hval' := resultEnvs_bound hbinds hi he'
  rw [Function.update_self] at hval hval'
  by_contra hnone
  refine hapart (fun _ => 0) c c' hc hc' hne e he e' he' (List.ext_getElem? fun mode => ?_)
  rw [Access.coords, Access.coords, List.getElem?_mapIdx, List.getElem?_mapIdx]
  cases hmode : body.result.indexVars[mode]? with
  | none => rfl
  | some v =>
    by_cases hv : v = i
    · subst hv
      rw [Option.map_some, Option.map_some, hval, hval']
      by_contra hcoordinate
      exact hnone ⟨mode, hmode, fun heq => hcoordinate (congrArg some heq)⟩
    · rw [Option.map_some, Option.map_some, heq v hv]

end Underived

/-! ### Marked loops without races -/

/-- What the check leaves open: a variable of a marked loop separates the components of the result, or the check sees it
    and the left-hand side does not have it; the loop does not read its result. -/
structure Tracked (dims : IndexVar → ℕ) (g : ProvenanceGraph) (i : IndexVar) (s : IndexStmt V) : Prop where
  separated : ∀ loop ∈ markedLoops g i .empty s, ∀ u ∈ g.getUnderivedAncestors i,
    loop.body.result.Separates dims u ∨ u ∉ loop.body.result.indexVars ∧
      Seen g i s (resultAssignment g loop.scopes loop.body).1 (resultAssignment g loop.scopes loop.body).2.2 u
  unread : ∀ loop ∈ markedLoops g i .empty s, ∀ a ∈ loop.body.reads, a.tensorVar ≠ loop.body.result.tensorVar

/-- The sums of the rows of a matrix. -/
def rowSums : IndexStmt ℤ :=
  .forall 0 (.forall 1 (.assignment (.make 0 [0]) (.access (.make 1 [0, 1])) true))

def denseFormat : TensorVar → Format := fun t =>
  if t = 0 then ⟨[.Dense], [0], Format.perm_vector⟩ else ⟨[.Dense, .Dense], [0, 1], Format.perm_matrix⟩

theorem rowSums_tracked : Tracked (fun _ => 2) ⟨[]⟩ 0 rowSums where
  separated loop hloop u hu := by
    rw [List.mem_singleton.mp hloop, List.mem_singleton.mp hu]
    exact Or.inl fun c _ c' _ hne => ⟨0, rfl, hne⟩
  unread loop hloop a ha := by
    rw [List.mem_singleton.mp hloop] at ha ⊢
    rw [List.mem_singleton.mp ha]
    decide

/-- A vector that is added to another one, once for each value of a variable that no access has. -/
def repeatedSum : IndexStmt ℤ :=
  .forall 0 (.forall 1 (.assignment (.make 0 [1]) (.access (.make 1 [1])) true))

def vectorFormat : TensorVar → Format := fun _ => ⟨[.Dense], [0], Format.perm_vector⟩

theorem repeatedSum_valid : repeatedSum.Valid (fun _ _ => 2) (fun _ => 2) where
  concrete := rfl
  typed := fun a ha _ mode i _ => by
    rcases List.mem_cons.mp ha with rfl | ha
    · rfl
    · rw [List.mem_singleton.mp ha]
      rfl
  fitted := fun a ha mode modifier h => by
    rcases List.mem_cons.mp ha with rfl | ha
    · cases h
    · rw [List.mem_singleton.mp ha] at h
      cases h
  binds := rfl

end Parallelize
end Concrete
end Taco
