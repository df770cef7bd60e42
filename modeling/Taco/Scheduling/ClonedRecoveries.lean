import Taco.Scheduling.ClonedLoops

/-! The guard of the copies, as a condition on the variables in front of them. -/

namespace Taco
namespace Scheduling
open Expr Strips

/-! ### The values that the guard is computed from -/

/-- The relations that are recovered when the leaves `us` are defined one after the other, after `defined`. -/
def recoveries (defined : List IndexVar) : List IndexVar → Derivation → List IndexVarRel
  | [], _ => []
  | u :: us, t => newly defined u t ++ recoveries (u :: defined) us t

/-- The loop variables of the tree that are not defined. -/
def undefinedLeaves (ds : List IndexVar) (s : Derivation) : List IndexVar := s.leaves.filter fun w => w ∉ ds

theorem mem_undefinedLeaves {ds : List IndexVar} {s : Derivation} {w : IndexVar} :
    w ∈ undefinedLeaves ds s ↔ w ∈ s.leaves ∧ w ∉ ds := by
  rw [undefinedLeaves, List.mem_filter, decide_eq_true_iff]

/-- The variables with the first values of the loops that are not defined. -/
def firstValues (ds : List IndexVar) (s : Derivation) (r : ℕ × ℕ) (env : Env) : Env := fun w =>
  if w ∈ undefinedLeaves ds s then (s.span w r).1 else env w

/-- The variables with the upper bounds of the loops that are not defined. -/
def boundValues (ds : List IndexVar) (s : Derivation) (r : ℕ × ℕ) (env : Env) : Env := fun w =>
  if w ∈ undefinedLeaves ds s then (s.span w r).2 else env w

theorem firstValues_update {ds : List IndexVar} {s : Derivation} {r : ℕ × ℕ} {p : IndexVar} (hp : p ∉ s.leaves) (env : Env)
    (x : ℕ) : firstValues ds s r (Function.update env p x) = Function.update (firstValues ds s r env) p x := by
  funext w
  by_cases hw : w = p
  · subst hw
    have hu : w ∉ undefinedLeaves ds s := fun h => hp (mem_undefinedLeaves.mp h).1
    rw [firstValues, if_neg hu, Function.update_self, Function.update_self]
  · rw [firstValues, Function.update_of_ne hw, Function.update_of_ne hw, firstValues]

/-- A child of a newly recovered relation that is a loop variable is defined. -/
theorem child_defined {defined : List IndexVar} {u w : IndexVar} {rel : IndexVarRel} : ∀ {t : Derivation}, t.Linked →
    t.labels.Nodup → rel ∈ newly defined u t → w ∈ rel.getChildren → w ∈ t.leaves → w ∈ u :: defined
  | .leaf _, _, _, h, _, _ => by cases h
  | .unary r t, ⟨hch, hl⟩, hnd, h, hc, hw => by
    have hnd' := (List.nodup_cons.mp hnd).2
    rw [newly, List.mem_append] at h
    rcases h with h | h
    · exact child_defined hl hnd' h hc hw
    · split_ifs at h with hsub
      · exact hsub hw
      · cases h
  | .binary r o i, ⟨hch, hlo, hli⟩, hnd, h, hc, hw => by
    obtain ⟨-, -, hndo, hndi, hdisj⟩ := Derivation.nodup_binary hnd
    rw [newly, List.mem_append] at h
    rcases h with h | h
    · by_cases huo : u ∈ o.leaves
      · rw [if_pos huo] at h
        have hwo : w ∈ o.labels := List.mem_of_mem_tail (Derivation.child_mem hlo (newly_subset_relations _ _ _ h) hc)
        refine child_defined hlo hndo h hc ((List.mem_append.mp hw).resolve_right fun hwi => ?_)
        exact hdisj w hwo (i.leaves_subset_labels hwi)
      · rw [if_neg huo] at h
        have hwi : w ∈ i.labels := List.mem_of_mem_tail (Derivation.child_mem hli (newly_subset_relations _ _ _ h) hc)
        refine child_defined hli hndi h hc ((List.mem_append.mp hw).resolve_left fun hwo => ?_)
        exact hdisj w (o.leaves_subset_labels hwo) hwi
    · split_ifs at h with hsub
      · exact hsub hw
      · cases h

/-! ### Recovering the variables -/

/-- The variables after the guard has recovered the parents of some relations. -/
def declareRels (S : Recovery) (first : Env → Env) : List IndexVarRel → Env → Env
  | [], env => env
  | rel :: rels, env => declareRels S first rels (Function.update env rel.parentVar (S.value rel (first env)))

theorem declareRels_append {S : Recovery} {first : Env → Env} (b : List IndexVarRel) : ∀ (a : List IndexVarRel) (env : Env),
    declareRels S first (a ++ b) env = declareRels S first b (declareRels S first a env)
  | [], _ => rfl
  | _ :: a, _ => declareRels_append b a _

/-- On the first values, the guard recovers what the loops would. -/
theorem runRels_first {S : Recovery} {ds : List IndexVar} {s : Derivation} {r : ℕ × ℕ} (hpass : ∀ rel env, S.passes rel env = true) :
    ∀ (rels : List IndexVarRel) (env : Env), (∀ rel ∈ rels, rel.parentVar ∉ s.leaves) →
      runRels S rels (firstValues ds s r env) = some (firstValues ds s r (declareRels S (firstValues ds s r) rels env))
  | [], _, _ => rfl
  | rel :: rels, env, h => by
    rw [runRels, ← firstValues_update (h rel List.mem_cons_self), if_pos (hpass _ _)]
    exact runRels_first hpass rels _ fun rel' h' => h rel' (List.mem_cons_of_mem _ h')

/-- The variables that the guard recovers, in the order of the leaves. -/
theorem recoveries_recovered {S : Recovery} {ds : List IndexVar} {t s : Derivation} {r : ℕ × ℕ} (hl : t.Linked)
    (hnd : t.labels.Nodup) (hleaves : t.leaves = s.leaves) (hpass : ∀ rel env, S.passes rel env = true) :
    ∀ (us defined : List IndexVar) (env : Env), us ⊆ t.leaves → us.Nodup → (∀ u ∈ us, u ∉ defined) →
      Recovered S defined (firstValues ds s r env) t →
        Recovered S (us.reverse ++ defined)
            (firstValues ds s r (declareRels S (firstValues ds s r) (recoveries defined us t) env)) t ∧
          ∀ w, (w ∉ t.inner ∨ w ∈ covered defined t) →
            declareRels S (firstValues ds s r) (recoveries defined us t) env w = env w
  | [], _, _, _, _, _, h => ⟨h, fun _ _ => rfl⟩
  | u :: us, defined, env, hus, hndu, hdisj, h => by
    obtain ⟨hu, hus⟩ := List.cons_subset.mp hus
    obtain ⟨huu, hndu⟩ := List.nodup_cons.mp hndu
    have hud : u ∉ defined := hdisj u List.mem_cons_self
    have hparent : ∀ rel ∈ newly defined u t, rel.parentVar ∉ s.leaves := fun rel hrel => hleaves ▸
      Derivation.not_mem_leaves_of_inner hnd (Derivation.parentVar_mem (newly_subset_relations _ _ _ hrel))
    have hstep := leaves_newly hud (firstValues ds s r env) (firstValues ds s r env u) hl hnd hu h
      (firstValues ds s r (declareRels S (firstValues ds s r) (newly defined u t) env))
    rw [Function.update_eq_self] at hstep
    obtain ⟨hrec, -⟩ := hstep.mp (runRels_first hpass _ env hparent)
    obtain ⟨hrest, hframe⟩ := recoveries_recovered hl hnd hleaves hpass us (u :: defined)
      (declareRels S (firstValues ds s r) (newly defined u t) env) hus hndu
      (fun w hw hd => (List.mem_cons.mp hd).elim (fun he => huu (he ▸ hw)) (hdisj w (List.mem_cons_of_mem _ hw))) hrec
    have hkeep : ∀ (rels : List IndexVarRel) (env : Env) (w : IndexVar), w ∉ rels.map IndexVarRel.parentVar →
        declareRels S (firstValues ds s r) rels env w = env w := by
      intro rels
      induction rels with
      | nil => exact fun _ _ _ => rfl
      | cons rel rels ih =>
        intro env w hw
        rw [List.map_cons] at hw
        obtain ⟨hne, hw⟩ := List.ne_and_not_mem_of_not_mem_cons hw
        rw [declareRels, ih _ _ hw, Function.update_of_ne hne]
    rw [recoveries, declareRels_append, List.reverse_cons, List.append_assoc, List.singleton_append]
    refine ⟨hrest, fun w hw => ?_⟩
    rw [hframe w (hw.imp_right fun hc => (mem_covered_cons hnd hu hud).mpr (.inl hc)), hkeep _ _ _ fun hn => ?_]
    rcases hw with hw | hw
    · exact hw (newParents_subset_inner _ _ _ hn)
    · exact not_mem_covered_of_new hnd hu hud hn hw

namespace SplitsOf

variable {g : ProvenanceGraph} {t s : Derivation} {n lo hi : ℕ}

/-- Recovered values are computed from the expressions of the children. -/
theorem recoverVariable_eq (h : SplitsOf n t s lo hi) (d : DerivedFrom g t) (variableExprs : IndexVar → Expr)
    {ds : List IndexVar} (hds : ds ⊆ t.leaves) (hnd : ds.Nodup) {rel : IndexVarRel} (hrel : rel ∈ t.relations) :
    ∃ x, g.recoverVariable (denseBounds t.label n) variableExprs ds rel.parentVar = some x ∧
      ∀ env e, (∀ w ∈ rel.getChildren, (variableExprs w).eval env = e w) →
        x.eval env = (splitRecovery false t.label lo hi).value rel e := by
  have hroot : denseBounds t.label n t.label = some (literal 0, property n) := if_pos rfl
  have hlabel : rel.parentVar ∈ t.labels := t.inner_subset_labels (Derivation.parentVar_mem hrel)
  obtain ⟨c, hiter⟩ := d.deriveIterBounds_exist hroot variableExprs hds hnd hlabel
  have hsplit : ∀ (r : SplitRelNode) (b : Bounds) (env : Env) (e : Env), (∀ w ∈ (IndexVarRel.split r).getChildren, (variableExprs w).eval env = e w) →
      ((IndexVarRel.split r).recoverVariable variableExprs b b).eval env = e r.outerVar * r.splitFactor + e r.innerVar := by
    intro r b env e he
    rw [IndexVarRel.recoverVariable, SplitRelNode.recoverVariable, eval_add, eval_mul, he _ List.mem_cons_self,
      he _ (List.mem_cons_of_mem _ (List.mem_singleton_self _))]
    rfl
  cases h with
  | dense hs =>
    obtain ⟨c', hcoord⟩ := d.coordBounds_exist hroot variableExprs hds hnd
    obtain ⟨r, rfl, -⟩ := hs.rel rel hrel
    refine ⟨r.recoverVariable variableExprs, ?_, fun env e he => hsplit r c env e he⟩
    rw [ProvenanceGraph.recoverVariable, d.childRel?_eq hrel, d.getUnderivedAncestor_eq hlabel, hiter, hcoord]
    rfl
  | @position rel₀ _ lo hi hs hlo hhi hle hcoord =>
    have hcoord : g.deriveCoordBounds (denseBounds (Derivation.unary (.pos rel₀) s).label n) variableExprs ds
        (Derivation.unary (.pos rel₀) s).label = some (literal 0, property n) :=
      d.position_coordBounds variableExprs hds hnd
    rcases List.mem_cons.mp hrel with rfl | hr
    · refine ⟨sub (load rel₀.coordArray (variableExprs rel₀.posVar)) (literal 0), ?_, fun env e he => ?_⟩
      · rw [ProvenanceGraph.recoverVariable, d.childRel?_eq hrel, d.getUnderivedAncestor_eq hlabel, hiter, hcoord]
        rfl
      · rw [eval_sub, eval_load, he _ (List.mem_singleton_self _)]
        rfl
    · obtain ⟨r, rfl, -⟩ := hs.rel rel hr
      refine ⟨r.recoverVariable variableExprs, ?_, fun env e he => hsplit r c env e he⟩
      rw [ProvenanceGraph.recoverVariable, d.childRel?_eq hrel, d.getUnderivedAncestor_eq hlabel, hiter, hcoord]
      rfl

/-- The loops have the ranges of the tree. -/
theorem iterBounds_eq (h : SplitsOf n t s lo hi) (d : DerivedFrom g t) {ds : List IndexVar} (hds : ds ⊆ t.leaves)
    (hnd : ds.Nodup) {w : IndexVar} (hw : w ∈ s.labels) :
    ∃ b, g.iterBounds (denseBounds t.label n) ds w = some b ∧
      ∀ env, b.1.eval env = (s.span w (lo, hi)).1 ∧ b.2.eval env = (s.span w (lo, hi)).2 := by
  have hroot : denseBounds t.label n t.label = some (literal 0, property n) := if_pos rfl
  cases h with
  | dense hs =>
    obtain ⟨c, hc⟩ := d.deriveIterBounds_exist hroot var hds hnd hw
    refine ⟨_, hc, fun env => ?_⟩
    exact Prod.ext_iff.mp (Derivation.eval_derivedBounds c env (literal 0, property n)
      d.represents d.nodup hs.cuts hw)
  | @position rel₀ _ _ _ hs hlo hhi =>
    obtain ⟨c, hc⟩ := d.position_iterBounds (n := n) hds hnd hw
    refine ⟨_, hc, fun env => ?_⟩
    have heval := Derivation.eval_derivedBounds c env rel₀.segment d.represents.2.2.2 (List.nodup_cons.mp d.nodup).2
      hs.cuts hw
    rw [hlo, hhi] at heval
    exact Prod.ext_iff.mp heval

end SplitsOf

/-! ### The guard -/

section

variable {g : ProvenanceGraph} {t s : Derivation} {n lo hi : ℕ} {ds : List IndexVar}

/-- The offset of the first recovered variable: what its recovered value grows by when the loops below it, that are
    not defined, have their upper bounds in place of their first values. -/
def OffsetOf (S : Recovery) (first bound : Env → Env) (rels : List IndexVarRel) (maxOffset : Option Expr) : Prop :=
  match rels with
  | [] => maxOffset = none
  | rel :: _ => ∃ x, maxOffset = some x ∧ ∀ env, x.eval env = S.value rel (bound env) - S.value rel (first env)

/-- The state after the leaves `defined`, which has recovered the parents of `rels`. -/
structure Guards (S : Recovery) (t s : Derivation) (r : ℕ × ℕ) (ds defined : List IndexVar) (rels : List IndexVarRel)
    (st : GuardState) : Prop where
  leaves : ∀ w ∈ t.leaves, w ∈ st.definedForGuard ↔ w ∈ defined
  inner : ∀ w ∈ t.inner, w ∈ st.definedForGuard → w ∈ covered defined t
  minValue : ∀ env w, (st.minChildValues w).eval env =
    if w ∈ defined ∧ w ∈ undefinedLeaves ds s then (s.span w r).1 else env w
  maxValue : ∀ env w, (st.maxChildValues w).eval env =
    if w ∈ defined ∧ w ∈ undefinedLeaves ds s then (s.span w r).2 else env w
  steps : ∀ env rest, runRecovery (st.guardRecoverySteps ++ rest) env =
    runRecovery rest (declareRels S (firstValues ds s r) rels env)
  offset : OffsetOf S (firstValues ds s r) (boundValues ds s r) rels st.maxOffset

/-- Recovering the parents of some relations whose children have their extreme values. -/
theorem recoverForGuard_eq (h : SplitsOf n t s lo hi) (d : DerivedFrom g t) (hds : ds ⊆ t.leaves) (hnd : ds.Nodup) :
    ∀ (new rels : List IndexVarRel) (st : GuardState), new ⊆ t.relations →
      (∀ rel ∈ new, ∀ w ∈ rel.getChildren, ∀ env,
        (st.minChildValues w).eval env = firstValues ds s (lo, hi) env w ∧
          (st.maxChildValues w).eval env = boundValues ds s (lo, hi) env w) →
      (∀ env rest, runRecovery (st.guardRecoverySteps ++ rest) env = runRecovery rest
        (declareRels (splitRecovery false t.label lo hi) (firstValues ds s (lo, hi)) rels env)) →
      OffsetOf (splitRecovery false t.label lo hi) (firstValues ds s (lo, hi)) (boundValues ds s (lo, hi)) rels st.maxOffset →
      ∃ st', (new.map IndexVarRel.parentVar).foldlM (g.recoverForGuard (denseBounds t.label n) ds) st = some st' ∧
        (∀ w, w ∈ st'.definedForGuard ↔ w ∈ new.map IndexVarRel.parentVar ∨ w ∈ st.definedForGuard) ∧
        st'.minChildValues = st.minChildValues ∧ st'.maxChildValues = st.maxChildValues ∧
        (∀ env rest, runRecovery (st'.guardRecoverySteps ++ rest) env = runRecovery rest
          (declareRels (splitRecovery false t.label lo hi) (firstValues ds s (lo, hi)) (rels ++ new) env)) ∧
        OffsetOf (splitRecovery false t.label lo hi) (firstValues ds s (lo, hi)) (boundValues ds s (lo, hi)) (rels ++ new)
          st'.maxOffset
  | [], rels, st, _, _, hsteps, hoffset => by
    refine ⟨st, rfl, fun w => by simp, rfl, rfl, ?_, ?_⟩
    · rwa [List.append_nil]
    · rwa [List.append_nil]
  | rel :: new, rels, st, hsub, hext, hsteps, hoffset => by
    obtain ⟨hrel, hsub⟩ := List.cons_subset.mp hsub
    obtain ⟨x, hx, hxval⟩ := h.recoverVariable_eq d st.minChildValues hds hnd hrel
    obtain ⟨y, hy, hyval⟩ := h.recoverVariable_eq d st.maxChildValues hds hnd hrel
    have hchildren := hext rel List.mem_cons_self
    have hxeval : ∀ env, x.eval env = (splitRecovery false t.label lo hi).value rel (firstValues ds s (lo, hi) env) :=
      fun env => hxval env _ fun w hw => (hchildren w hw env).1
    have hyeval : ∀ env, y.eval env = (splitRecovery false t.label lo hi).value rel (boundValues ds s (lo, hi) env) :=
      fun env => hyval env _ fun w hw => (hchildren w hw env).2
    let st₁ : GuardState := { st with
      maxOffset := st.maxOffset <|> some (add (literal 0) (sub y x))
      guardRecoverySteps := st.guardRecoverySteps ++ [.varDecl rel.parentVar x]
      definedForGuard := rel.parentVar :: st.definedForGuard }
    have hst₁ : g.recoverForGuard (denseBounds t.label n) ds st rel.parentVar = some st₁ := by
      rw [ProvenanceGraph.recoverForGuard, hx, hy]
      rfl
    obtain ⟨st', hst', hdef, hmin, hmax, hsteps', hoffset'⟩ := recoverForGuard_eq h d hds hnd new (rels ++ [rel]) st₁ hsub
      (fun rel' h' => hext rel' (List.mem_cons_of_mem _ h'))
      (fun env rest => by
        rw [List.append_assoc, hsteps, declareRels_append, List.singleton_append, runRecovery, hxeval]
        rfl)
      (by
        cases rels with
        | nil =>
          have hnone : st.maxOffset = none := hoffset
          refine ⟨add (literal 0) (sub y x), by simp [st₁, hnone], fun env => ?_⟩
          rw [eval_add, eval_literal, Nat.zero_add, eval_sub, hxeval, hyeval]
        | cons rel' rels =>
          obtain ⟨z, hz, hzval⟩ := hoffset
          exact ⟨z, by simp [st₁, hz], hzval⟩)
    rw [List.append_assoc, List.singleton_append] at hsteps' hoffset'
    refine ⟨st', ?_, fun w => ?_, hmin, hmax, hsteps', hoffset'⟩
    · rw [List.map_cons, List.foldlM_cons, hst₁]
      exact hst'
    · rw [hdef w, List.map_cons, List.mem_cons, List.mem_cons]
      tauto

/-- A leaf that is not defined takes its extreme values and makes its parents recoverable. -/
theorem guardChild_eq (h : SplitsOf n t s lo hi) (d : DerivedFrom g t) (hds : ds ⊆ t.leaves) (hnd : ds.Nodup)
    {defined : List IndexVar} {rels : List IndexVarRel} {st : GuardState} (hdefined : defined ⊆ t.leaves) {u : IndexVar}
    (hu : u ∈ t.leaves) (hud : u ∉ defined) (hsub : ds ⊆ defined)
    (hst : Guards (splitRecovery false t.label lo hi) t s (lo, hi) ds defined rels st) :
    ∃ st', g.guardChild (denseBounds t.label n) ds st u = some st' ∧
      Guards (splitRecovery false t.label lo hi) t s (lo, hi) ds (u :: defined) (rels ++ newly defined u t) st' := by
  have huds : u ∉ ds := fun hu' => hud (hsub hu')
  have hus : u ∈ s.leaves := h.leaves_eq ▸ hu
  have hundef : u ∈ undefinedLeaves ds s := mem_undefinedLeaves.mpr ⟨hus, huds⟩
  obtain ⟨b, hb, hbval⟩ := h.iterBounds_eq d hds hnd (s.leaves_subset_labels hus)
  let st₀ : GuardState := { st with
    minChildValues := Function.update st.minChildValues u b.1
    maxChildValues := Function.update st.maxChildValues u b.2 }
  have hudef : u ∉ st.definedForGuard := fun hd => hud ((hst.leaves u hu).mp hd)
  have hclosed : Closed st.definedForGuard t := Closed.of_covered (fun w hw => (hst.leaves w (hdefined hw)).mpr hw) d.nodup
    hst.inner
  have hparents : g.newlyRecoverableParents st.definedForGuard g.relations.length u =
      (newly defined u t).map IndexVarRel.parentVar := by
    rw [d.newlyRecoverableParents hclosed hu hudef, newly_congr hst.leaves]
  have hmin : ∀ env w, (st₀.minChildValues w).eval env =
      if w ∈ u :: defined ∧ w ∈ undefinedLeaves ds s then (s.span w (lo, hi)).1 else env w := fun env w => by
    by_cases hw : w = u
    · subst hw
      rw [if_pos ⟨List.mem_cons_self, hundef⟩]
      show (Function.update st.minChildValues w b.1 w).eval env = _
      rw [Function.update_self, (hbval env).1]
    · show (Function.update st.minChildValues u b.1 w).eval env = _
      rw [Function.update_of_ne hw, hst.minValue]
      simp only [List.mem_cons, hw, false_or]
  have hmax : ∀ env w, (st₀.maxChildValues w).eval env =
      if w ∈ u :: defined ∧ w ∈ undefinedLeaves ds s then (s.span w (lo, hi)).2 else env w := fun env w => by
    by_cases hw : w = u
    · subst hw
      rw [if_pos ⟨List.mem_cons_self, hundef⟩]
      show (Function.update st.maxChildValues w b.2 w).eval env = _
      rw [Function.update_self, (hbval env).2]
    · show (Function.update st.maxChildValues u b.2 w).eval env = _
      rw [Function.update_of_ne hw, hst.maxValue]
      simp only [List.mem_cons, hw, false_or]
  -- The loop variables among the children of the new relations are defined by now.
  have hextreme : ∀ rel ∈ newly defined u t, ∀ w ∈ rel.getChildren, ∀ env,
      (st₀.minChildValues w).eval env = firstValues ds s (lo, hi) env w ∧
        (st₀.maxChildValues w).eval env = boundValues ds s (lo, hi) env w := fun rel hrel w hw env => by
    have hiff : (w ∈ u :: defined ∧ w ∈ undefinedLeaves ds s) ↔ w ∈ undefinedLeaves ds s :=
      ⟨And.right, fun hw' => ⟨child_defined d.linked d.nodup hrel hw (h.leaves_eq ▸ (mem_undefinedLeaves.mp hw').1), hw'⟩⟩
    rw [hmin, hmax, firstValues, boundValues]
    simp only [hiff, and_self]
  obtain ⟨st', hst', hdef, hmin', hmax', hsteps, hoffset⟩ := recoverForGuard_eq h d hds hnd (newly defined u t) rels st₀
    (newly_subset_relations _ _ _) hextreme hst.steps hst.offset
  refine ⟨{ st' with definedForGuard := u :: st'.definedForGuard }, ?_, ?_, ?_, ?_, ?_, hsteps, hoffset⟩
  · rw [ProvenanceGraph.guardChild, if_neg huds, hb, hparents]
    exact Option.bind_eq_some_iff.mpr ⟨b, rfl, Option.bind_eq_some_iff.mpr ⟨st', hst', rfl⟩⟩
  · intro w hw
    rw [List.mem_cons, hdef, List.mem_cons]
    show w = u ∨ _ ∨ w ∈ st.definedForGuard ↔ _
    rw [hst.leaves w hw]
    have hnot : w ∉ (newly defined u t).map IndexVarRel.parentVar := fun hn =>
      Derivation.not_mem_leaves_of_inner d.nodup (newParents_subset_inner defined u t hn) hw
    tauto
  · intro w hw hwd
    rw [List.mem_cons, hdef] at hwd
    rw [mem_covered_cons d.nodup hu hud]
    rcases hwd with rfl | hn | hd
    · exact absurd hu (Derivation.not_mem_leaves_of_inner d.nodup hw)
    · exact .inr hn
    · exact .inl (hst.inner w hw hd)
  · intro env w
    rw [hmin']
    exact hmin env w
  · intro env w
    rw [hmax']
    exact hmax env w

/-- The leaves of the tree one after the other; those that are defined are passed over. -/
theorem guardChildren_eq (h : SplitsOf n t s lo hi) (d : DerivedFrom g t) (hds : ds ⊆ t.leaves) (hnd : ds.Nodup) :
    ∀ (cs defined : List IndexVar) (rels : List IndexVarRel) (st : GuardState), cs ⊆ t.leaves → cs.Nodup →
      defined ⊆ t.leaves → ds ⊆ defined → (∀ u ∈ cs, u ∉ ds → u ∉ defined) →
      Guards (splitRecovery false t.label lo hi) t s (lo, hi) ds defined rels st →
      ∃ st', cs.foldlM (g.guardChild (denseBounds t.label n) ds) st = some st' ∧
        Guards (splitRecovery false t.label lo hi) t s (lo, hi) ds ((cs.filter fun w => w ∉ ds).reverse ++ defined)
          (rels ++ recoveries defined (cs.filter fun w => w ∉ ds) t) st'
  | [], defined, rels, st, _, _, _, _, _, hst => ⟨st, rfl, by
      rw [List.filter_nil, List.reverse_nil, List.nil_append, recoveries, List.append_nil]
      exact hst⟩
  | u :: cs, defined, rels, st, hcs, hndc, hdefined, hsub, hnew, hst => by
    obtain ⟨hu, hcs⟩ := List.cons_subset.mp hcs
    obtain ⟨huc, hndc⟩ := List.nodup_cons.mp hndc
    by_cases hud : u ∈ ds
    · have hskip : g.guardChild (denseBounds t.label n) ds st u = some st := if_pos hud
      obtain ⟨st', hst', hguards⟩ := guardChildren_eq h d hds hnd cs defined rels st hcs hndc hdefined hsub
        (fun w hw => hnew w (List.mem_cons_of_mem _ hw)) hst
      refine ⟨st', ?_, ?_⟩
      · rw [List.foldlM_cons, hskip]
        exact hst'
      · rwa [List.filter_cons_of_neg (by simpa using hud)]
    · have hudef := hnew u List.mem_cons_self hud
      obtain ⟨st₁, hst₁, hguards₁⟩ := guardChild_eq h d hds hnd hdefined hu hudef hsub hst
      obtain ⟨st', hst', hguards⟩ := guardChildren_eq h d hds hnd cs (u :: defined) _ st₁ hcs hndc
        (List.cons_subset.mpr ⟨hu, hdefined⟩) (List.subset_cons_of_subset _ hsub)
        (fun w hw hwd hd => (List.mem_cons.mp hd).elim (fun he => huc (he ▸ hw)) (hnew w (List.mem_cons_of_mem _ hw) hwd))
        hguards₁
      refine ⟨st', ?_, ?_⟩
      · rw [List.foldlM_cons, hst₁]
        exact hst'
      · rw [List.filter_cons_of_pos (by simpa using hud), List.reverse_cons, List.append_assoc, recoveries,
          List.singleton_append]
        rwa [List.append_assoc] at hguards

end

/-! ### The guarded variable -/

/-- The loop variables below a variable. -/
theorem getFullyDerivedDescendants_eq {g : ProvenanceGraph} : ∀ {t : Derivation} {fuel : ℕ}, Represents g t →
    t.height ≤ fuel → g.getFullyDerivedDescendants fuel t.label = t.leaves
  | .leaf _, 0, _, _ => rfl
  | .leaf v, fuel + 1, h, _ => by
    have h : g.childRel? v = none := h
    have hnil : g.getChildren v = [] := by rw [ProvenanceGraph.getChildren, h]
    rw [Derivation.label, ProvenanceGraph.getFullyDerivedDescendants, hnil]
    rfl
  | .unary rel t, fuel + 1, ⟨hc, hch, _, ht⟩, hf => by
    rw [Derivation.label, ProvenanceGraph.getFullyDerivedDescendants, getChildren_eq hc, hch]
    show [t.label].flatMap (g.getFullyDerivedDescendants fuel) = t.leaves
    rw [List.flatMap_singleton, getFullyDerivedDescendants_eq ht (Nat.le_of_succ_le_succ hf)]
  | .binary rel o i, fuel + 1, ⟨hc, hch, _, _, ho, hi⟩, hf => by
    rw [Derivation.height, Nat.add_le_add_iff_right, Nat.max_le] at hf
    rw [Derivation.label, ProvenanceGraph.getFullyDerivedDescendants, getChildren_eq hc, hch]
    show [o.label, i.label].flatMap (g.getFullyDerivedDescendants fuel) = o.leaves ++ i.leaves
    rw [List.flatMap_cons, List.flatMap_singleton, getFullyDerivedDescendants_eq ho hf.1, getFullyDerivedDescendants_eq hi hf.2]

namespace SplitsOf

variable {g : ProvenanceGraph} {t s : Derivation} {n lo hi : ℕ}

theorem represents (h : SplitsOf n t s lo hi) (d : DerivedFrom g t) : Represents g s ∧ s.height ≤ g.relations.length ∧
    s.Linked ∧ s.labels.Nodup ∧ s.relations ⊆ t.relations ∧ s.labels ⊆ t.labels := by
  cases h with
  | dense => exact ⟨d.represents, d.height_le, d.linked, d.nodup, List.Subset.refl _, List.Subset.refl _⟩
  | position =>
    have hheight : s.height ≤ g.relations.length := Nat.le_of_succ_le d.height_le
    exact ⟨d.represents.2.2.2, hheight, d.linked.2, (List.nodup_cons.mp d.nodup).2, List.subset_cons_self _ _,
      List.subset_cons_self _ _⟩

/-- A variable of the graph is recoverable, or is not guarded, unless the splits start from it. -/
theorem not_guarded (h : SplitsOf n t s lo hi) (d : DerivedFrom g t) {w : IndexVar} (hw : w ∈ t.inner) (hne : w ≠ s.label) :
    (g.isUnderived w && !g.hasPosDescendant g.relations.length w) = false ∧
      (g.isPosVariable g.relations.length w && match g.getParents w with
        | [parent] => !g.isPosVariable g.relations.length parent
        | _ => false) = false := by
  have hlabel : w ∈ t.labels := t.inner_subset_labels hw
  cases h with
  | dense hs =>
    rw [d.isUnderived_eq_false hlabel hne, isPosVariable_eq_false fun rel hrel => (d.relations_cut hs.cuts rel hrel).not_pos]
    exact ⟨rfl, rfl⟩
  | @position rel _ _ _ hs =>
    rcases List.mem_cons.mp hlabel with rfl | hlabel
    · -- The coordinate is guarded through its position.
      have hdescendant : g.hasPosDescendant g.relations.length (IndexVarRel.pos rel).parentVar = true :=
        d.hasPosDescendant_parentVar
      have hcoord : g.isPosVariable g.relations.length (IndexVarRel.pos rel).parentVar = false := d.isPosVariable_parentVar
      rw [hdescendant, hcoord]
      exact ⟨Bool.and_false _, rfl⟩
    · have hne' : w ≠ rel.parentVar := fun he => d.parentVar_not_mem (he ▸ hlabel)
      refine ⟨by rw [d.isUnderived_eq_false (List.mem_cons_of_mem _ hlabel) hne', Bool.false_and], ?_⟩
      have hclimbs := climbs_above d.represents.2.2.2 (List.nodup_cons.mp d.nodup).2 hlabel
      cases habove : above w s with
      | nil =>
        rw [habove] at hclimbs
        exact absurd hclimbs hne
      | cons r rels =>
        rw [habove] at hclimbs
        have hr : r ∈ s.relations := above_subset w s (habove ▸ List.mem_cons_self)
        have hparent : g.isPosVariable g.relations.length r.parentVar = true :=
          d.isPosVariable_below (s.inner_subset_labels (Derivation.parentVar_mem hr))
        rw [getParents_eq hclimbs.1]
        dsimp only
        rw [hparent, Bool.not_true, Bool.and_false]

/-- The variable that the splits start from is guarded. -/
theorem guarded (h : SplitsOf n t s lo hi) (d : DerivedFrom g t) :
    (g.isUnderived s.label && !g.hasPosDescendant g.relations.length s.label ||
      g.isPosVariable g.relations.length s.label && match g.getParents s.label with
        | [parent] => !g.isPosVariable g.relations.length parent
        | _ => false) = true := by
  cases h with
  | dense hs =>
    have hunderived : g.isUnderived t.label = true := by
      rw [ProvenanceGraph.isUnderived, ProvenanceGraph.getParents, d.parentRel?_root]
      rfl
    rw [hunderived, hasPosDescendant_eq_false fun rel hrel => (d.relations_cut hs.cuts rel hrel).not_pos]
    rfl
  | @position rel _ _ _ hs =>
    have hparents : g.getParents s.label = [rel.parentVar] := getParents_eq d.represents.2.2.1
    rw [d.isPosVariable_below s.label_mem_labels, hparents]
    dsimp only
    rw [d.isPosVariable_parentVar, Bool.or_eq_true]
    exact .inr rfl

/-- The only guarded variable is the one that the splits start from. -/
theorem varsWithGuard_eq (h : SplitsOf n t s lo hi) (d : DerivedFrom g t) (hsplit : s.label ∉ s.leaves) {ds : List IndexVar}
    (hds : ds ⊆ t.leaves) {v : IndexVar} (hv : v ∈ t.leaves) (hvd : v ∉ ds) : g.varsWithGuard ds = [s.label] := by
  obtain ⟨hrep, hheight, hlinked, hnds, hrels, hlabels⟩ := h.represents d
  have hinner : ∀ w ∈ s.inner, w ∉ ds := fun w hw hd => by
    have hw' : w ∈ s.leaves := h.leaves_eq ▸ hds hd
    exact Derivation.not_mem_leaves_of_inner hnds hw hw'
  obtain ⟨rel, hrel, hlabel⟩ : ∃ rel ∈ s.relations, s.label = rel.parentVar := by
    cases s with
    | leaf w => exact absurd (List.mem_singleton_self w) hsplit
    | unary rel s => exact ⟨rel, List.mem_cons_self, rfl⟩
    | binary rel o i => exact ⟨rel, List.mem_cons_self, rfl⟩
  have hnot : g.isRecoverable ds g.relations.length s.label = false := by
    have hchild := d.childRel?_eq (hrels hrel)
    rw [hlabel]
    refine not_isRecoverable hrep hheight (Closed.of_inner hinner) hlabel hchild ?_ (h.leaves_eq ▸ hv) hvd
    obtain ⟨r, rfl, -⟩ := h.splits.rel rel hrel
    exact List.cons_ne_nil _ _
  have hmem : s.label ∈ g.getAllIndexVars := by
    rw [ProvenanceGraph.getAllIndexVars, List.mem_dedup, List.mem_flatMap]
    exact ⟨rel, d.perm.mem_iff.mpr (hrels hrel), hlabel ▸ List.mem_cons_self⟩
  have hall : ∀ w ∈ g.getAllIndexVars, w ∈ t.labels := fun w hw => by
    rw [ProvenanceGraph.getAllIndexVars, List.mem_dedup, List.mem_flatMap] at hw
    obtain ⟨rel', hrel', hw⟩ := hw
    have hrel' := d.perm.mem_iff.mp hrel'
    rcases List.mem_cons.mp hw with rfl | hw
    · exact t.inner_subset_labels (Derivation.parentVar_mem hrel')
    · exact List.mem_of_mem_tail (Derivation.child_mem d.linked hrel' hw)
  have hpos : 0 < g.relations.length := by
    rw [d.perm.length_eq]
    exact List.length_pos_of_mem (hrels hrel)
  refine List.perm_singleton.mp ((List.perm_ext_iff_of_nodup ((List.nodup_dedup _).filter _) (List.nodup_singleton _)).mpr
    fun w => ?_)
  rw [List.mem_filter, List.mem_singleton]
  constructor
  · rintro ⟨hw, hguard⟩
    by_contra hne
    rw [Bool.and_eq_true] at hguard
    rcases Derivation.mem_labels (hall w hw) with hleaf | hin
    · -- A loop variable has no children that are missing.
      obtain ⟨m, hm⟩ := Nat.exists_eq_add_one.mpr hpos
      have hnil : g.getChildren w = [] := by rw [ProvenanceGraph.getChildren, d.childRel?_leaf hleaf]
      have hrec : g.isRecoverable ds g.relations.length w = true := by
        rw [hm, ProvenanceGraph.isRecoverable, hnil]
        rfl
      rw [hrec] at hguard
      cases hguard.1
    · obtain ⟨h₁, h₂⟩ := h.not_guarded d hin hne
      have hguard := hguard.2
      rw [h₁, Bool.false_or] at hguard
      exact Bool.false_ne_true (h₂.symm.trans hguard)
  · rintro rfl
    refine ⟨hmem, ?_⟩
    rw [hnot, Bool.not_false, Bool.true_and]
    exact h.guarded d

end SplitsOf

end Scheduling
end Taco
