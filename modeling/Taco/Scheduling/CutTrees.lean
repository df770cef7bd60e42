import Taco.Library.Strips
import Taco.Library.Visits
import Taco.Scheduling.Ancestors

/-! Trees of splits and divides: the ranges that the variables are iterated over, and the code that recovers them. -/

namespace Taco
namespace Scheduling
open Expr Strips

namespace IndexVarRel

/-- A split or divide by a positive factor. -/
def PositiveCut : IndexVarRel → Prop
  | split rel => 0 < rel.splitFactor
  | divide rel => 0 < rel.divFactor
  | _ => False

/-- How far the loop over the child `w` runs, when the parent has the range `[0, k)`. -/
@[grind =]
def extent (w : IndexVar) (k : ℕ) : IndexVarRel → ℕ
  | split rel => if w = rel.outerVar then ceilDiv k rel.splitFactor else rel.splitFactor
  | divide rel => if w = rel.outerVar then rel.divFactor else ceilDiv k rel.divFactor
  | _ => k

/-- The range of the loop over the child `w`, from the range of the parent. -/
@[grind =]
def span (w : IndexVar) (r : ℕ × ℕ) : IndexVarRel → ℕ × ℕ
  | split rel => if w = rel.outerVar then (r.1 / rel.splitFactor, ceilDiv r.2 rel.splitFactor) else (0, rel.splitFactor)
  | divide rel => if w = rel.outerVar then (0, rel.divFactor) else (r.1 / rel.divFactor, ceilDiv r.2 rel.divFactor)
  | _ => r

/-- The size of the strips or chunks of `[0, k)`. -/
def stripSize (k : ℕ) : IndexVarRel → ℕ
  | split rel => rel.splitFactor
  | divide rel => ceilDiv k rel.divFactor
  | _ => 1

/-- The value of the parent, from strips of `size`. -/
def parentValue (size : ℕ) (env : Env) : IndexVarRel → ℕ
  | split rel => env rel.outerVar * size + env rel.innerVar
  | divide rel => env rel.outerVar * size + env rel.innerVar
  | pos rel => env rel.posVar
  | bound rel => env rel.boundVar

/-- The parent is in its chunk, when it is divided. -/
def inChunk (size : ℕ) (env : Env) : IndexVarRel → Bool
  | divide rel => env rel.parentVar < (env rel.outerVar + 1) * size
  | _ => true

theorem eval_deriveIterBounds {rel : IndexVarRel} (hrel : rel.PositiveCut) (b : Bounds) (env : Env) (w : IndexVar)
    (c : Bounds) : ((rel.deriveIterBounds w b c).1.eval env, (rel.deriveIterBounds w b c).2.eval env) =
      rel.span w (b.1.eval env, b.2.eval env) := by
  cases rel with
  | split rel =>
    rw [deriveIterBounds, SplitRelNode.deriveIterBounds, span]
    split_ifs <;> rfl
  | divide rel =>
    rw [deriveIterBounds, DivideRelNode.deriveIterBounds, span]
    split_ifs <;> rfl
  | pos rel => exact absurd hrel id
  | bound rel => exact absurd hrel id

theorem span_zero (w : IndexVar) (k : ℕ) (rel : IndexVarRel) : rel.span w (0, k) = (0, rel.extent w k) := by
  cases rel <;> simp only [span, extent, Nat.zero_div] <;> split_ifs <;> rfl

theorem eval_recoverVariable {rel : IndexVarRel} (hrel : rel.PositiveCut) {b : Bounds} {env : Env} {k : ℕ}
    (hlo : b.1.eval env = 0) (hhi : b.2.eval env = k) (c : Bounds) :
    (rel.recoverVariable var b c).eval env = rel.parentValue (rel.stripSize k) env := by
  cases rel with
  | split rel => rfl
  | divide rel =>
    show env _ * ((b.2.eval env - b.1.eval env + (rel.divFactor - 1)) / rel.divFactor) + env _ = _
    rw [hlo, hhi, Nat.sub_zero]
    rfl
  | pos rel => exact absurd hrel id
  | bound rel => exact absurd hrel id

theorem parentValue_congr {rel : IndexVarRel} {env env' : Env} (size : ℕ)
    (h : ∀ w ∈ rel.getChildren, env w = env' w) : rel.parentValue size env = rel.parentValue size env' := by
  cases rel <;> simp_all [parentValue, getChildren]

theorem inChunk_congr {rel : IndexVarRel} {env env' : Env} (size : ℕ)
    (h : ∀ w ∈ rel.parentVar :: rel.getChildren, env w = env' w) : rel.inChunk size env = rel.inChunk size env' := by
  cases rel <;> simp_all [inChunk, getChildren, parentVar]

theorem PositiveCut.not_pos {rel : IndexVarRel} (hrel : rel.PositiveCut) : rel.isPos = false := by
  cases rel <;> first | rfl | exact absurd hrel id

theorem PositiveCut.not_bound {rel : IndexVarRel} (hrel : rel.PositiveCut) : rel.isBound = false := by
  cases rel <;> first | rfl | exact absurd hrel id

end IndexVarRel

namespace Derivation

/-- Every relation is a split or a divide. -/
def Cuts : Derivation → Prop
  | leaf _ => True
  | unary .. => False
  | binary rel o i => rel.PositiveCut ∧ o.Cuts ∧ i.Cuts

/-- How far the loop over the variable `w` of the tree runs, when the root has the range `[0, k)`. -/
@[grind =]
def extent (w : IndexVar) : Derivation → ℕ → ℕ
  | leaf _, k => k
  | unary _ t, k => t.extent w k
  | binary rel o i, k =>
    if w = rel.parentVar then k
    else if w ∈ o.labels then o.extent w (rel.extent o.label k)
    else i.extent w (rel.extent i.label k)

theorem extent_label {t : Derivation} (ht : t.Cuts) (k : ℕ) : t.extent t.label k = k := by
  cases t with
  | leaf v => rfl
  | unary rel t => exact absurd ht id
  | binary rel o i => exact if_pos rfl

section

variable {rel : IndexVarRel} {o i : Derivation} {w : IndexVar}

theorem extent_outer (hnd : (binary rel o i).labels.Nodup) (h : w ∈ o.labels) (k : ℕ) :
    (binary rel o i).extent w k = o.extent w (rel.extent o.label k) := by
  rw [extent, if_neg fun he : w = rel.parentVar => (nodup_binary hnd).1 (he ▸ h), if_pos h]

theorem extent_inner (hnd : (binary rel o i).labels.Nodup) (h : w ∈ i.labels) (k : ℕ) :
    (binary rel o i).extent w k = i.extent w (rel.extent i.label k) := by
  obtain ⟨-, hpi, -, -, hdisj⟩ := nodup_binary hnd
  rw [extent, if_neg fun he : w = rel.parentVar => hpi (he ▸ h), if_neg fun ho => hdisj w ho h]

end

theorem Cuts.rel : ∀ {t : Derivation}, t.Cuts → ∀ rel ∈ t.relations, rel.PositiveCut
  | leaf _, _, _, h => by cases h
  | unary .., ht, _, _ => absurd ht id
  | binary _ o i, ⟨hrel, ho, hi⟩, rel', h => by
    rcases List.mem_cons.mp h with rfl | h
    · exact hrel
    · exact (List.mem_append.mp h).elim (ho.rel rel') (hi.rel rel')

theorem extent_child {c : IndexVar} : ∀ {t : Derivation} {rel : IndexVarRel} {k : ℕ}, t.Linked → t.labels.Nodup → t.Cuts →
    rel ∈ t.relations → c ∈ rel.getChildren → t.extent c k = rel.extent c (t.extent rel.parentVar k)
  | leaf _, _, _, _, _, _, h, _ => by cases h
  | unary .., _, _, _, _, ht, _, _ => absurd ht id
  | binary r o i, rel, k, ⟨hch, hlo, hli⟩, hnd, ⟨_, ho, hi⟩, h, hc => by
    obtain ⟨-, -, hndo, hndi, -⟩ := nodup_binary hnd
    rcases List.mem_cons.mp h with rfl | h
    · rw [hch, List.mem_cons, List.mem_singleton] at hc
      have hself : (binary rel o i).extent rel.parentVar k = k := if_pos rfl
      rw [hself]
      rcases hc with rfl | rfl
      · rw [extent_outer hnd o.label_mem_labels, extent_label ho]
      · rw [extent_inner hnd i.label_mem_labels, extent_label hi]
    · rcases List.mem_append.mp h with h | h
      · rw [extent_outer hnd (List.mem_of_mem_tail (child_mem hlo h hc)),
          extent_outer hnd (o.inner_subset_labels (parentVar_mem h)), extent_child hlo hndo ho h hc]
      · rw [extent_inner hnd (List.mem_of_mem_tail (child_mem hli h hc)),
          extent_inner hnd (i.inner_subset_labels (parentVar_mem h)), extent_child hli hndi hi h hc]

/-- The two children of a relation are different. -/
theorem nodup_children : ∀ {t : Derivation} {rel : IndexVarRel}, t.Linked → t.labels.Nodup → t.Cuts → rel ∈ t.relations →
    rel.getChildren.Nodup
  | leaf _, _, _, _, _, h => by cases h
  | unary .., _, _, _, ht, _ => absurd ht id
  | binary r o i, rel, ⟨hch, hlo, hli⟩, hnd, ⟨_, ho, hi⟩, h => by
    obtain ⟨-, -, hndo, hndi, hdisj⟩ := nodup_binary hnd
    rcases List.mem_cons.mp h with rfl | h
    · rw [hch, List.nodup_cons, List.mem_singleton]
      exact ⟨fun he => hdisj _ o.label_mem_labels (he ▸ i.label_mem_labels), List.nodup_singleton _⟩
    · rcases List.mem_append.mp h with h | h
      · exact nodup_children hlo hndo ho h
      · exact nodup_children hli hndi hi h

/-- The range of the loop over the variable `w` of the tree, from the range of the root. -/
@[grind =]
def span (w : IndexVar) : Derivation → ℕ × ℕ → ℕ × ℕ
  | leaf _, r => r
  | unary _ t, r => t.span w r
  | binary rel o i, r =>
    if w = rel.parentVar then r
    else if w ∈ o.labels then o.span w (rel.span o.label r)
    else i.span w (rel.span i.label r)

theorem span_outer {rel : IndexVarRel} {o i : Derivation} {w : IndexVar} (hnd : (binary rel o i).labels.Nodup)
    (h : w ∈ o.labels) (r : ℕ × ℕ) : (binary rel o i).span w r = o.span w (rel.span o.label r) := by
  rw [span, if_neg fun he : w = rel.parentVar => (nodup_binary hnd).1 (he ▸ h), if_pos h]

theorem span_inner {rel : IndexVarRel} {o i : Derivation} {w : IndexVar} (hnd : (binary rel o i).labels.Nodup)
    (h : w ∈ i.labels) (r : ℕ × ℕ) : (binary rel o i).span w r = i.span w (rel.span i.label r) := by
  obtain ⟨-, hpi, -, -, hdisj⟩ := nodup_binary hnd
  rw [span, if_neg fun he : w = rel.parentVar => hpi (he ▸ h), if_neg fun ho => hdisj w ho h]

theorem span_zero (w : IndexVar) : ∀ (t : Derivation) (k : ℕ), t.span w (0, k) = (0, t.extent w k)
  | leaf _, _ => rfl
  | unary _ t, k => span_zero w t k
  | binary rel o i, k => by
    rw [span, extent, rel.span_zero, rel.span_zero, span_zero w o, span_zero w i]
    split_ifs <;> rfl

/-- The bounds of the loops evaluate to their ranges. -/
theorem eval_derivedBounds {g : ProvenanceGraph} {w : IndexVar} (c : Bounds) (env : Env) : ∀ {t : Derivation} (b : Bounds),
    Represents g t → t.labels.Nodup → t.Cuts → w ∈ t.labels →
      ((derivedBounds c w (above w t) b).1.eval env, (derivedBounds c w (above w t) b).2.eval env) =
        t.span w (b.1.eval env, b.2.eval env)
  | leaf _, _, _, _, _, _ => rfl
  | unary .., _, _, _, ht, _ => absurd ht id
  | binary rel o i, b, hr, hnd, ⟨hrel, hco, hci⟩, hw => by
    obtain ⟨-, -, hndo, hndi, -⟩ := nodup_binary hnd
    obtain ⟨-, -, -, -, ho, hi⟩ := hr
    rcases List.mem_cons.mp hw with rfl | hwt
    · rw [above, if_pos rfl, span, if_pos rfl]
      rfl
    · rcases List.mem_append.mp hwt with hwo | hwi
      · rw [above_outer hnd hwo, derivedBounds_append (climbs_above ho hndo hwo), span_outer hnd hwo,
          eval_derivedBounds c env _ ho hndo hco hwo, rel.eval_deriveIterBounds hrel]
      · rw [above_inner hnd hwi, derivedBounds_append (climbs_above hi hndi hwi), span_inner hnd hwi,
          eval_derivedBounds c env _ hi hndi hci hwi, rel.eval_deriveIterBounds hrel]

end Derivation

/-! ### The recovery code -/

/-- The recovery below extents `ext`: a parent is composed of its children; the root is guarded against `n` when
    `emit` is set. -/
def cutRecovery (emit : Bool) (root : IndexVar) (n : ℕ) (ext : IndexVar → ℕ) : Recovery where
  value rel env := rel.parentValue (rel.stripSize (ext rel.parentVar)) env
  passes rel env := (!(emit && rel.parentVar == root) || decide (env rel.parentVar < n)) &&
    rel.inChunk (rel.stripSize (ext rel.parentVar)) env
  value_congr rel _ _ h := rel.parentValue_congr _ h
  passes_congr rel env env' h := by
    rw [rel.inChunk_congr _ h, h rel.parentVar List.mem_cons_self]

section

variable {g : ProvenanceGraph} {t : Derivation}

theorem isPosVariable_eq_false (h : ∀ rel ∈ g.relations, rel.isPos = false) :
    ∀ (fuel : ℕ) (w : IndexVar), g.isPosVariable fuel w = false
  | 0, _ => rfl
  | fuel + 1, w => by
    rw [ProvenanceGraph.isPosVariable]
    cases hp : g.parentRel? w with
    | none => rfl
    | some rel =>
      show (rel.isPos || g.isPosVariable fuel rel.parentVar) = false
      rw [h rel (List.mem_of_find?_eq_some hp), isPosVariable_eq_false h fuel, Bool.or_false]

theorem hasPosDescendant_eq_false (h : ∀ rel ∈ g.relations, rel.isPos = false) :
    ∀ (fuel : ℕ) (w : IndexVar), g.hasPosDescendant fuel w = false
  | 0, w => isPosVariable_eq_false h _ w
  | fuel + 1, w => by
    rw [ProvenanceGraph.hasPosDescendant, isPosVariable_eq_false h, Bool.false_or, List.any_eq_false]
    exact fun c _ => by rw [hasPosDescendant_eq_false h fuel c]; exact Bool.false_ne_true

theorem hasExactBound_eq_false {w : IndexVar} (h : ∀ rel, g.parentRel? w = some rel → rel.isBound = false) :
    g.hasExactBound w = false := by
  rw [ProvenanceGraph.hasExactBound]
  cases hp : g.parentRel? w with
  | none => rfl
  | some rel => exact h rel hp

namespace DerivedFrom

variable {underivedBounds : IndexVar → Option Bounds} (d : DerivedFrom g t)

include d

theorem relations_cut (ht : t.Cuts) : ∀ rel ∈ g.relations, rel.PositiveCut := fun rel h =>
  ht.rel rel (d.perm.mem_iff.mp h)

/-- The coordinate bounds exist at every point of a nest over the leaves. -/
theorem coordBounds_exist {b : Bounds} (hb : underivedBounds t.label = some b) (variableExprs : IndexVar → Expr)
    {ds : List IndexVar} (hds : ds ⊆ t.leaves) (hnd : ds.Nodup) :
    ∃ c, g.deriveCoordBounds underivedBounds variableExprs ds t.label = some c := by
  rcases List.eq_nil_or_concat ds with rfl | ⟨ps, v, rfl⟩
  · exact ⟨b, hb⟩
  · rw [List.concat_eq_append] at hds hnd ⊢
    obtain ⟨hps, hv⟩ := List.append_subset.mp hds
    rw [d.deriveCoordBounds_eq (hv (List.mem_singleton_self v)) hps hnd, hb]
    exact ⟨_, rfl⟩

theorem deriveIterBounds_exist {b : Bounds} (hb : underivedBounds t.label = some b) (variableExprs : IndexVar → Expr)
    {ds : List IndexVar} (hds : ds ⊆ t.leaves) (hnd : ds.Nodup) {w : IndexVar} (hw : w ∈ t.labels) :
    ∃ c, g.deriveIterBounds underivedBounds variableExprs ds g.relations.length w =
      some (derivedBounds c w (above w t) b) := by
  have hsub : ds.dropLast.Sublist ds := List.dropLast_sublist ds
  obtain ⟨c, hc⟩ := d.coordBounds_exist hb variableExprs (List.Subset.trans hsub.subset hds) (hsub.nodup hnd)
  exact ⟨c, (d.climbs hw).deriveIterBounds d.parentRel?_root hb hc (d.length_above w) (d.length_above w)⟩

/-- The loop bounds of a dense dimension evaluate to the extents. -/
theorem eval_iterBounds (ht : t.Cuts) {b : Bounds} (hb : underivedBounds t.label = some b) {n : ℕ}
    (hlo : ∀ env, b.1.eval env = 0) (hhi : ∀ env, b.2.eval env = n) {ds : List IndexVar} (hds : ds ⊆ t.leaves)
    (hnd : ds.Nodup) {w : IndexVar} (hw : w ∈ t.labels) : ∃ bounds, g.iterBounds underivedBounds ds w = some bounds ∧
      ∀ env, bounds.1.eval env = 0 ∧ bounds.2.eval env = t.extent w n := by
  obtain ⟨c, hc⟩ := d.deriveIterBounds_exist hb var hds hnd hw
  refine ⟨_, hc, fun env => ?_⟩
  have heval := Derivation.eval_derivedBounds c env b d.represents d.nodup ht hw
  rw [hlo, hhi, Derivation.span_zero] at heval
  exact Prod.ext_iff.mp heval

/-- No guard is left out below splits and divides. -/
theorem underivedGuard_cuts (ht : t.Cuts) {n : ℕ} (hub : underivedBounds = denseBounds t.label n) (ds : List IndexVar)
    (v : IndexVar) (rel : IndexVarRel) :
    g.underivedGuard underivedBounds ds v rel.parentVar =
      some (if rel.parentVar = t.label then [.continueIf (.gte (var rel.parentVar) (property n))] else []) := by
  have hcut := d.relations_cut ht
  have hbound : ∀ c, g.hasExactBound c = false := fun c => hasExactBound_eq_false fun rel' h =>
    (hcut rel' (List.mem_of_find?_eq_some h)).not_bound
  have hdiv : g.hasDirectDivBound underivedBounds ds v rel.parentVar = some false := by
    rw [ProvenanceGraph.hasDirectDivBound]
    simp only [hbound, Bool.and_false, Bool.false_and, Bool.false_eq_true, if_false]
    induction g.getChildren rel.parentVar with
    | nil => rfl
    | cons c cs ih => rw [List.foldlM_cons]; exact ih
  subst hub
  rw [ProvenanceGraph.underivedGuard, denseBounds]
  by_cases hroot : rel.parentVar = t.label
  · rw [if_pos hroot, if_pos hroot]
    dsimp only
    rw [hasPosDescendant_eq_false fun rel' h => (hcut rel' h).not_pos, if_neg Bool.false_ne_true, hdiv]
    rfl
  · rw [if_neg hroot, if_neg hroot]

/-- The code that recovers the parent of a split or divide. -/
theorem recoverySteps_cut (ht : t.Cuts) {n : ℕ} (hub : underivedBounds = denseBounds t.label n) (emit : Bool)
    {ds : List IndexVar} (hds : ds ⊆ t.leaves) (hnd : ds.Nodup) (v : IndexVar) {rel : IndexVarRel}
    (hrel : rel ∈ t.relations) :
    ∃ steps, g.recoverySteps underivedBounds ds emit v rel.parentVar = some steps ∧
      ∀ env rest, runRecovery (steps ++ rest) env =
        let S := cutRecovery emit t.label n fun w => t.extent w n
        if S.passes rel (Function.update env rel.parentVar (S.value rel env)) then
          runRecovery rest (Function.update env rel.parentVar (S.value rel env))
        else none := by
  have hcut := ht.rel rel hrel
  have hb : underivedBounds t.label = some (literal 0, property n) := by rw [hub]; exact if_pos rfl
  have hlabel : rel.parentVar ∈ t.labels := t.inner_subset_labels (Derivation.parentVar_mem hrel)
  have hexact : g.hasExactBound v = false := hasExactBound_eq_false fun rel' h =>
    (d.relations_cut ht rel' (List.mem_of_find?_eq_some h)).not_bound
  have hchild := d.childRel?_eq hrel
  obtain ⟨b, hiter, heval⟩ := d.eval_iterBounds ht hb (fun _ => rfl) (fun _ => rfl) hds hnd hlabel
  obtain ⟨c, hcoord⟩ := d.coordBounds_exist hb var hds hnd
  have hrecover : g.recoverVariable underivedBounds var ds rel.parentVar = some (rel.recoverVariable var b c) := by
    rw [ProvenanceGraph.recoverVariable, hchild, d.getUnderivedAncestor_eq hlabel, hcoord]
    exact congrArg (fun x : Option Bounds => x >>= fun b' => some (rel.recoverVariable var b' c)) hiter
  have hpos : g.positionGuard underivedBounds ds rel.parentVar = some [] := by
    rw [ProvenanceGraph.positionGuard, getChildren_eq hchild]
    cases rel <;> first | rfl | exact absurd hcut id
  have hguard := d.underivedGuard_cuts ht hub ds v rel
  have hvalue : ∀ env, (rel.recoverVariable var b c).eval env = rel.parentValue (rel.stripSize (t.extent rel.parentVar n)) env :=
    fun env => rel.eval_recoverVariable hcut (heval env).1 (heval env).2 c
  obtain ⟨chunk, hchunk, hrun⟩ : ∃ chunk, g.chunkGuard underivedBounds ds rel.parentVar = some chunk ∧
      ∀ env rest, runRecovery (chunk ++ rest) env =
        if rel.inChunk (rel.stripSize (t.extent rel.parentVar n)) env then runRecovery rest env else none := by
    rw [ProvenanceGraph.chunkGuard, hchild]
    cases rel with
    | split rel => exact ⟨[], rfl, fun _ _ => rfl⟩
    | divide rel =>
      have hinner : rel.innerVar ∈ (IndexVarRel.divide rel).getChildren := List.mem_cons_of_mem _ (List.mem_singleton_self _)
      obtain ⟨bi, hbi, hevali⟩ := d.eval_iterBounds ht hb (fun _ => rfl) (fun _ => rfl) hds hnd
        (List.mem_of_mem_tail (Derivation.child_mem d.linked hrel hinner))
      have hne : rel.innerVar ≠ rel.outerVar := fun he =>
        (List.nodup_cons.mp (Derivation.nodup_children d.linked d.nodup ht hrel)).1 (he ▸ List.mem_singleton_self _)
      have hsize : t.extent rel.innerVar n = ceilDiv (t.extent rel.parentVar n) rel.divFactor := by
        rw [Derivation.extent_child d.linked d.nodup ht hrel hinner]
        exact if_neg hne
      refine ⟨[.continueIf (.gte (var rel.parentVar) (mul (add (var rel.outerVar) (literal 1)) (sub bi.2 bi.1)))], ?_,
        fun env rest => ?_⟩
      · simp only [hbi]
        rfl
      · have hsub : (sub bi.2 bi.1).eval env = ceilDiv (t.extent rel.parentVar n) rel.divFactor := by
          rw [eval_sub, (hevali env).1, (hevali env).2, hsize, Nat.sub_zero]
        rw [List.singleton_append, runRecovery]
        simp only [Condition.eval, eval_mul, eval_add, eval_var, eval_literal, hsub, decide_eq_true_eq,
          IndexVarRel.inChunk, IndexVarRel.stripSize, ← not_lt (b := (env rel.outerVar + 1) * _), ite_not]
        exact (if_congr decide_eq_true_iff rfl rfl).symm
    | pos rel => exact absurd hcut id
    | bound rel => exact absurd hcut id
  refine ⟨_, ProvenanceGraph.recoverySteps_eq hexact hpos hrecover hguard hchunk emit, fun env rest => ?_⟩
  rw [ite_self, List.nil_append, List.cons_append, runRecovery, hvalue, List.append_assoc]
  dsimp only [cutRecovery]
  generalize Function.update env rel.parentVar _ = env'
  cases emit
  · exact hrun env' rest
  · by_cases hroot : rel.parentVar = t.label
    · simp only [if_true, if_pos hroot, List.singleton_append, runRecovery, Condition.eval, eval_var, eval_property, hrun,
        decide_eq_true_eq, Bool.true_and, beq_iff_eq.mpr hroot, Bool.not_true, Bool.false_or, Bool.and_eq_true,
        ← not_lt (b := n), ite_not, ite_and]
    · simp only [if_true, if_neg hroot, List.nil_append, hrun, beq_eq_false_iff_ne.mpr hroot, Bool.and_false,
        Bool.not_false, Bool.true_or, Bool.true_and]

/-- What `lowerForall` makes of a nest over the leaves, in any order. -/
theorem lowers_cuts (ht : t.Cuts) (emit : Bool) (n : ℕ) {order : List IndexVar} (horder : order.Perm t.leaves) :
    Lowers (cutRecovery emit t.label n fun w => t.extent w n) g (denseBounds t.label n) emit t order
      fun v _ => List.range (t.extent v n) where
  derived := d
  perm := horder
  bounds ds v vs h := by
    have hnd : order.Nodup := horder.nodup_iff.mpr (t.leaves_sublist_labels.nodup d.nodup)
    have hsub : (ds ++ [v]).Sublist order := by
      rw [h, List.append_cons ds v vs]
      exact List.sublist_append_left _ _
    have hds : ds ++ [v] ⊆ t.leaves := List.Subset.trans hsub.subset horder.subset
    have hv : v ∈ t.labels := t.leaves_subset_labels (hds (List.mem_append_right _ (List.mem_singleton_self v)))
    have hroot : denseBounds t.label n t.label = some (literal 0, property n) := if_pos rfl
    obtain ⟨b, hb, heval⟩ := d.eval_iterBounds ht hroot (n := n) (fun _ => rfl) (fun _ => rfl) hds (hsub.nodup hnd) hv
    refine ⟨b, hb, fun env => ?_, fun _ _ _ => rfl⟩
    rw [Bounds.values, (heval env).1, (heval env).2, Nat.sub_zero, List.range_eq_range']
  steps ds v vs h rel hrel := by
    have hnd : order.Nodup := horder.nodup_iff.mpr (t.leaves_sublist_labels.nodup d.nodup)
    have hsub : ds.Sublist order := h ▸ List.sublist_append_left _ _
    exact d.recoverySteps_cut ht rfl emit (List.Subset.trans hsub.subset horder.subset) (hsub.nodup hnd) v
      (newly_subset_relations ds v t hrel)

end DerivedFrom

end

/-! ### Iterations -/

/-- The variables of the tree are those of an iteration below a range `[0, k)` of the root. -/
def Iterates (e : Env) : Derivation → ℕ → Prop
  | .leaf v, k => e v < k
  | .unary .., _ => False
  | .binary rel o i, k =>
    (Iterates e o (rel.extent o.label k) ∧ Iterates e i (rel.extent i.label k)) ∧
      e rel.parentVar = rel.parentValue (rel.stripSize k) e ∧ rel.inChunk (rel.stripSize k) e = true

/-- Recovered variables whose leaves are in their ranges are those of an iteration. -/
theorem iterates_of_recovered {emit : Bool} {root : IndexVar} {n : ℕ} {ext : IndexVar → ℕ} {order : List IndexVar} {e : Env} :
    ∀ {t : Derivation} {k : ℕ}, t.Cuts → t.labels.Nodup → (∀ w ∈ t.labels, ext w = t.extent w k) → t.leaves ⊆ order →
      (∀ v ∈ t.leaves, e v < ext v) → Recovered (cutRecovery emit root n ext) order e t → Iterates e t k
  | .leaf v, k, _, _, hext, _, hlt, _ => by
    have h := hlt v (List.mem_singleton_self v)
    rwa [hext v (List.mem_singleton_self v)] at h
  | .unary .., _, ht, _, _, _, _, _ => ht
  | .binary rel o i, k, ⟨_, ho, hi⟩, hnd, hext, hsub, hlt, ⟨⟨hro, hri⟩, hrec⟩ => by
    obtain ⟨-, -, hndo, hndi, -⟩ := Derivation.nodup_binary hnd
    obtain ⟨hso, hsi⟩ := List.append_subset.mp hsub
    have hk : ext rel.parentVar = k := (hext _ List.mem_cons_self).trans (if_pos rfl)
    obtain ⟨hval, hpass⟩ := hrec hsub
    dsimp only [cutRecovery] at hval hpass
    rw [hk, Bool.and_eq_true] at hpass
    rw [hk] at hval
    refine ⟨⟨iterates_of_recovered ho hndo (fun w hw => ?_) hso (fun v hv => hlt v (List.mem_append_left _ hv)) hro,
      iterates_of_recovered hi hndi (fun w hw => ?_) hsi (fun v hv => hlt v (List.mem_append_right _ hv)) hri⟩, hval, hpass.2⟩
    · rw [hext w (List.mem_cons_of_mem _ (List.mem_append_left _ hw)), Derivation.extent_outer hnd hw]
    · rw [hext w (List.mem_cons_of_mem _ (List.mem_append_right _ hw)), Derivation.extent_inner hnd hw]

namespace Derivation

/-- The tree does not run past the range `[0, k)` of its root: a split factor divides what it splits, and so does a
    divide factor. -/
def Within : Derivation → ℕ → Prop
  | leaf _, _ => True
  | unary .., _ => False
  | binary (.split rel) o i, k =>
    rel.splitFactor ∣ k ∧ o.Within (k / rel.splitFactor) ∧ i.Within rel.splitFactor
  | binary (.divide rel) o _, k => rel.divFactor ∣ k ∧ o.Within rel.divFactor
  | binary .., _ => False

theorem label_lt {e : Env} : ∀ {t : Derivation} {k : ℕ}, t.Linked → t.labels.Nodup → t.Cuts → t.Within k →
    Iterates e t k → e t.label < k
  | leaf _, _, _, _, _, _, h => h
  | unary .., _, _, _, ht, _, _ => absurd ht id
  | binary (.split rel) o i, k, ⟨hch, hlo, hli⟩, hnd, ⟨hs, ho, hi⟩, ⟨hdvd, hwo, hwi⟩, ⟨⟨hio, hii⟩, hval, _⟩ => by
    obtain ⟨-, -, hndo, hndi, hdisj⟩ := nodup_binary hnd
    obtain ⟨houter, hinner⟩ : rel.outerVar = o.label ∧ rel.innerVar = i.label := by
      simpa [IndexVarRel.getChildren] using hch
    have hne : i.label ≠ rel.outerVar := fun he => hdisj _ o.label_mem_labels (houter ▸ he ▸ i.label_mem_labels)
    rw [IndexVarRel.extent, if_pos houter.symm, ceilDiv_of_dvd hs hdvd] at hio
    rw [IndexVarRel.extent, if_neg hne] at hii
    have hlto := label_lt hlo hndo ho hwo hio
    have hlti := label_lt hli hndi hi hwi hii
    have hval : e rel.parentVar = e rel.outerVar * rel.splitFactor + e rel.innerVar := hval
    show e rel.parentVar < k
    rw [hval, houter, hinner, ← Nat.div_mul_cancel hdvd]
    exact strip_lt hlto hlti
  | binary (.divide rel) o i, k, ⟨hch, hlo, _⟩, hnd, ⟨hc, ho, _⟩, ⟨hdvd, hwo⟩, ⟨⟨hio, _⟩, _, hchunk⟩ => by
    obtain ⟨-, -, hndo, -, -⟩ := nodup_binary hnd
    have houter : rel.outerVar = o.label := (List.cons.inj hch).1
    rw [IndexVarRel.extent, if_pos houter.symm] at hio
    have hlto := label_lt hlo hndo ho hwo hio
    have hchunk : e rel.parentVar < (e rel.outerVar + 1) * ceilDiv k rel.divFactor := of_decide_eq_true hchunk
    rw [ceilDiv_of_dvd hc hdvd, houter] at hchunk
    calc e rel.parentVar < (e o.label + 1) * (k / rel.divFactor) := hchunk
      _ ≤ rel.divFactor * (k / rel.divFactor) := Nat.mul_le_mul_right _ hlto
      _ = k := Nat.mul_div_cancel' hdvd

end Derivation

end Scheduling
end Taco
