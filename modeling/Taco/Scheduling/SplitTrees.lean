import Taco.Scheduling.CutTrees

/-! Trees of splits, of a dense variable or of the positions of an access. -/

namespace Taco
namespace Scheduling
open Expr Strips

def IndexVarRel.PositiveSplit : IndexVarRel → Prop
  | .split rel => 0 < rel.splitFactor
  | _ => False

namespace Derivation

/-- Every relation is a split by a positive factor. -/
def Splits : Derivation → Prop
  | leaf _ => True
  | unary .. => False
  | binary rel o i => rel.PositiveSplit ∧ o.Splits ∧ i.Splits

theorem Splits.cuts : ∀ {t : Derivation}, t.Splits → t.Cuts
  | leaf _, _ => trivial
  | unary .., h => absurd h id
  | binary (.split _) _ _, ⟨h, ho, hi⟩ => ⟨h, ho.cuts, hi.cuts⟩
  | binary (.divide _) _ _, ⟨h, _⟩ => absurd h id
  | binary (.pos _) _ _, ⟨h, _⟩ => absurd h id
  | binary (.bound _) _ _, ⟨h, _⟩ => absurd h id

theorem Splits.rel : ∀ {t : Derivation}, t.Splits → ∀ rel ∈ t.relations, ∃ r, rel = .split r ∧ 0 < r.splitFactor
  | leaf _, _, _, h => by cases h
  | unary .., ht, _, _ => absurd ht id
  | binary r o i, ⟨hr, ho, hi⟩, rel, h => by
    rcases List.mem_cons.mp h with rfl | h
    · cases rel with
      | split r => exact ⟨r, rfl, hr⟩
      | divide r => exact absurd hr id
      | pos r => exact absurd hr id
      | bound r => exact absurd hr id
    · exact (List.mem_append.mp h).elim (ho.rel rel) (hi.rel rel)

/-- The value that is composed of values of the leaves. -/
def compose (e : Env) : Derivation → ℕ
  | leaf v => e v
  | unary _ t => t.compose e
  | binary rel o i => o.compose e * rel.stripSize 0 + i.compose e

theorem compose_congr {e e' : Env} : ∀ {t : Derivation}, (∀ w ∈ t.leaves, e w = e' w) → t.compose e = t.compose e'
  | leaf v, h => h v (List.mem_singleton_self v)
  | unary _ t, h => compose_congr (t := t) h
  | binary _ o i, h => by
    rw [compose, compose, compose_congr fun w hw => h w (List.mem_append_left _ hw),
      compose_congr fun w hw => h w (List.mem_append_right _ hw)]

theorem compose_add (e e' : Env) : ∀ t : Derivation, t.compose (fun w => e w + e' w) = t.compose e + t.compose e'
  | leaf _ => rfl
  | unary _ t => compose_add e e' t
  | binary rel o i => by
    rw [compose, compose, compose, compose_add e e' o, compose_add e e' i]
    ring

theorem compose_mono {e e' : Env} : ∀ {t : Derivation}, (∀ w ∈ t.leaves, e w ≤ e' w) → t.compose e ≤ t.compose e'
  | leaf v, h => h v (List.mem_singleton_self v)
  | unary _ t, h => compose_mono (t := t) h
  | binary .., h => Nat.add_le_add
      (Nat.mul_le_mul_right _ (compose_mono fun w hw => h w (List.mem_append_left _ hw)))
      (compose_mono fun w hw => h w (List.mem_append_right _ hw))

end Derivation

/-- A recovered variable is composed of the leaves below it. -/
theorem Recovered.compose {S : Recovery} {defined : List IndexVar} {e : Env}
    (hS : ∀ (rel : SplitRelNode) (env : Env), S.value (.split rel) env = env rel.outerVar * rel.splitFactor + env rel.innerVar) :
    ∀ {t : Derivation}, t.Linked → t.Splits → t.leaves ⊆ defined → Recovered S defined e t → e t.label = t.compose e
  | .leaf _, _, _, _, _ => rfl
  | .unary .., _, ht, _, _ => absurd ht id
  | .binary (.split rel) o i, ⟨hch, hlo, hli⟩, ⟨_, ho, hi⟩, hsub, ⟨⟨hro, hri⟩, hrec⟩ => by
    obtain ⟨hso, hsi⟩ := List.append_subset.mp hsub
    obtain ⟨houter, hinner⟩ : rel.outerVar = o.label ∧ rel.innerVar = i.label := by
      simpa [IndexVarRel.getChildren] using hch
    have hval : e rel.parentVar = e rel.outerVar * rel.splitFactor + e rel.innerVar := (hrec hsub).1.trans (hS rel e)
    rw [houter, hinner, hro.compose hS hlo ho hso, hri.compose hS hli hi hsi] at hval
    exact hval
  | .binary (.divide _) _ _, _, ht, _, _ => absurd ht.1 id
  | .binary (.pos _) _ _, _, ht, _, _ => absurd ht.1 id
  | .binary (.bound _) _ _, _, ht, _, _ => absurd ht.1 id

/-- The derivation `t` splits the variable at the root of `s`, with the range `[lo, hi)`: the underived variable, a dense
    dimension of `n`, or the positions of a segment that holds coordinates of the dimension. -/
inductive SplitsOf (n : ℕ) : Derivation → Derivation → ℕ → ℕ → Prop
  | dense {s : Derivation} : s.Splits → SplitsOf n s s 0 n
  | position {rel : PosRelNode} {s : Derivation} {lo hi : ℕ} : s.Splits → (∀ env, rel.segment.1.eval env = lo) →
      (∀ env, rel.segment.2.eval env = hi) → lo ≤ hi → (∀ p, lo ≤ p → p < hi → rel.coordArray p < n) →
      SplitsOf n (.unary (.pos rel) s) s lo hi

/-- The recovery of splits and of the coordinate at a position; the root is guarded against `hi` and a position against
    `[lo, hi)` when `emit` is set. -/
def splitRecovery (emit : Bool) (root : IndexVar) (lo hi : ℕ) : Recovery where
  value rel env :=
    match rel with
    | .split rel => env rel.outerVar * rel.splitFactor + env rel.innerVar
    | .pos rel => rel.coordArray (env rel.posVar)
    | _ => 0
  passes rel env := !emit ||
    match rel with
    | .split rel => rel.parentVar != root || decide (env rel.parentVar < hi)
    | .pos rel => decide (lo ≤ env rel.posVar) && decide (env rel.posVar < hi)
    | _ => true
  value_congr rel env env' h := by
    cases rel <;> simp_all [IndexVarRel.getChildren]
  passes_congr rel env env' h := by
    cases rel <;> simp_all [IndexVarRel.getChildren, IndexVarRel.parentVar]

/-- The relations of a nest determine its recovery. -/
theorem Lowers.congr {S S' : Recovery} {g : ProvenanceGraph} {underivedBounds : IndexVar → Option Bounds} {emit : Bool}
    {t : Derivation} {order : List IndexVar} {range range' : IndexVar → Env → List ℕ}
    (h : Lowers S g underivedBounds emit t order range)
    (hS : ∀ rel ∈ t.relations, S.value rel = S'.value rel ∧ S.passes rel = S'.passes rel) (hrange : range = range') :
    Lowers S' g underivedBounds emit t order range' where
  derived := h.derived
  perm := h.perm
  bounds := hrange ▸ h.bounds
  steps ds v vs horder rel hrel := by
    obtain ⟨steps, hsteps, hrun⟩ := h.steps ds v vs horder rel hrel
    obtain ⟨hval, hpass⟩ := hS rel (newly_subset_relations ds v t hrel)
    exact ⟨steps, hsteps, fun env rest => by rw [hrun, hval, hpass]⟩

/-- Below a position the coordinate bounds are those of the underived variable. -/
theorem relativeBounds_position {variableExprs : IndexVar → Expr} {defined : List IndexVar} {rel : PosRelNode} {b : Bounds} :
    ∀ rels : List IndexVarRel, relativeBounds variableExprs defined (rels ++ [.pos rel]) b = b
  | [] => rfl
  | rel' :: rels => by
    have hany : (rels ++ [IndexVarRel.pos rel]).any IndexVarRel.isPos = true := by
      rw [List.any_append]
      exact Bool.or_true _
    rw [List.cons_append, relativeBounds, relativeBounds_position rels, hany]
    cases rel' <;> rfl

namespace DerivedFrom

variable {g : ProvenanceGraph} {rel : PosRelNode} {s : Derivation} {n lo hi : ℕ} (d : DerivedFrom g (.unary (.pos rel) s))

include d

theorem parentVar_not_mem : rel.parentVar ∉ s.labels := (List.nodup_cons.mp d.nodup).1

theorem position_coordBounds (variableExprs : IndexVar → Expr) {ds : List IndexVar} (hds : ds ⊆ s.leaves) (hnd : ds.Nodup) :
    g.deriveCoordBounds (denseBounds rel.parentVar n) variableExprs ds rel.parentVar =
      some (literal 0, property n) := by
  have hroot : denseBounds rel.parentVar n rel.parentVar = some (literal 0, property n) := if_pos rfl
  rcases List.eq_nil_or_concat ds with rfl | ⟨ps, v, rfl⟩
  · exact hroot
  · rw [List.concat_eq_append] at hds hnd ⊢
    obtain ⟨hps, hv⟩ := List.append_subset.mp hds
    have hv := hv (List.mem_singleton_self v)
    have h : g.deriveCoordBounds (denseBounds rel.parentVar n) variableExprs (ps ++ [v]) rel.parentVar = _ :=
      d.deriveCoordBounds_eq hv hps hnd
    rw [above_unary d.nodup (s.leaves_subset_labels hv)] at h
    refine h.trans ?_
    show (denseBounds rel.parentVar n rel.parentVar).map _ = _
    rw [hroot, Option.map_some, relativeBounds_position]

theorem position_iterBounds {ds : List IndexVar} (hds : ds ⊆ s.leaves) (hnd : ds.Nodup) {w : IndexVar} (hw : w ∈ s.labels) :
    ∃ c, g.iterBounds (denseBounds rel.parentVar n) ds w = some (derivedBounds c w (above w s) rel.segment) := by
  have hroot : denseBounds rel.parentVar n rel.parentVar = some (literal 0, property n) := if_pos rfl
  obtain ⟨c, hc⟩ := d.deriveIterBounds_exist hroot var hds hnd (List.mem_cons_of_mem rel.parentVar hw)
  refine ⟨c, ?_⟩
  rw [ProvenanceGraph.iterBounds, hc, above_unary d.nodup hw]
  exact congrArg some (derivedBounds_append (climbs_above d.represents.2.2.2 (List.nodup_cons.mp d.nodup).2 hw))

theorem position_relation {rel' : IndexVarRel} (h : rel' ∈ g.relations) : rel' = .pos rel ∨ rel' ∈ s.relations :=
  List.mem_cons.mp (d.perm.mem_iff.mp h)

theorem isPosVariable_parentVar : g.isPosVariable g.relations.length rel.parentVar = false := by
  have habove : above rel.parentVar (.unary (.pos rel) s) = [] := above_label (.unary (.pos rel) s)
  have hlabel : rel.parentVar ∈ (Derivation.unary (.pos rel) s).labels := List.mem_cons_self
  rw [d.isPosVariable_eq hlabel, habove]
  rfl

theorem isPosVariable_below {w : IndexVar} (hw : w ∈ s.labels) : g.isPosVariable g.relations.length w = true := by
  rw [d.isPosVariable_eq (List.mem_cons_of_mem _ hw), above_unary d.nodup hw, List.any_append]
  exact Bool.or_true _

theorem posVar_eq : rel.posVar = s.label := (List.cons.inj d.linked.1).1

theorem isPosVariable_posVar : g.isPosVariable g.relations.length rel.posVar = true :=
  d.posVar_eq ▸ d.isPosVariable_below s.label_mem_labels

theorem getChildren_parentVar : g.getChildren rel.parentVar = [rel.posVar] := getChildren_eq d.represents.1

theorem hasPosDescendant_parentVar : g.hasPosDescendant g.relations.length rel.parentVar = true := by
  obtain ⟨m, hm⟩ : ∃ m, g.relations.length = m + 1 := Nat.exists_eq_add_one.mpr (by
    rw [d.perm.length_eq]
    exact Nat.succ_pos _)
  have hself : ∀ fuel, g.hasPosDescendant fuel rel.posVar = true := fun fuel => by
    cases fuel <;> rw [ProvenanceGraph.hasPosDescendant, d.isPosVariable_posVar]
    rfl
  rw [hm, ProvenanceGraph.hasPosDescendant, d.getChildren_parentVar, List.any_cons, hself, Bool.true_or, Bool.or_true]

/-- The code that recovers the coordinate from its position. -/
theorem recoverySteps_position {ds : List IndexVar} (hds : ds ⊆ s.leaves) (hnd : ds.Nodup) {v : IndexVar}
    (hexact : g.hasExactBound v = false) (emit : Bool) :
    g.recoverySteps (denseBounds rel.parentVar n) ds emit v rel.parentVar =
      some ((if emit then [.continueIf (outOfBounds (var rel.posVar) rel.segment)] else []) ++
        [.varDecl rel.parentVar (sub (load rel.coordArray (var rel.posVar)) (literal 0))]) := by
  have hroot : denseBounds rel.parentVar n rel.parentVar = some (literal 0, property n) := if_pos rfl
  have hchild : g.childRel? rel.parentVar = some (.pos rel) := d.represents.1
  have hlabel : rel.parentVar ∈ (Derivation.unary (.pos rel) s).labels := List.mem_cons_self
  obtain ⟨c, hsegment⟩ := d.position_iterBounds (n := n) hds hnd s.label_mem_labels
  rw [above_label, ← d.posVar_eq] at hsegment
  have hposition : g.positionGuard (denseBounds rel.parentVar n) ds rel.parentVar =
      some [.continueIf (outOfBounds (var rel.posVar) rel.segment)] := by
    rw [ProvenanceGraph.positionGuard, d.getChildren_parentVar]
    simp only [d.isPosVariable_parentVar, d.isPosVariable_posVar, hsegment]
    rfl
  obtain ⟨c', hiter⟩ := d.deriveIterBounds_exist hroot var hds hnd hlabel
  have hvalue : g.recoverVariable (denseBounds rel.parentVar n) var ds rel.parentVar =
      some (sub (load rel.coordArray (var rel.posVar)) (literal 0)) := by
    rw [ProvenanceGraph.recoverVariable, hchild, d.getUnderivedAncestor_eq hlabel]
    have hcoord := d.position_coordBounds (n := n) var hds hnd
    rw [hiter]
    show (do let parentCoordBound ← g.deriveCoordBounds _ _ _ rel.parentVar; _) = _
    rw [hcoord]
    rfl
  have hunderived : g.underivedGuard (denseBounds rel.parentVar n) ds v rel.parentVar = some [] := by
    rw [ProvenanceGraph.underivedGuard, hroot]
    dsimp only
    rw [if_pos d.hasPosDescendant_parentVar]
  have hchunk : g.chunkGuard (denseBounds rel.parentVar n) ds rel.parentVar = some [] := by
    rw [ProvenanceGraph.chunkGuard, hchild]
  rw [ProvenanceGraph.recoverySteps_eq hexact hposition hvalue hunderived hchunk emit, ite_self]
  rfl

/-- The code that recovers the parent of a split of positions. -/
theorem recoverySteps_position_split {ds : List IndexVar} (hds : ds ⊆ s.leaves) (hnd : ds.Nodup)
    {v : IndexVar} (hexact : g.hasExactBound v = false) (emit : Bool) {r : SplitRelNode}
    (hr : IndexVarRel.split r ∈ s.relations) :
    g.recoverySteps (denseBounds rel.parentVar n) ds emit v r.parentVar =
      some [.varDecl r.parentVar (r.recoverVariable var)] := by
  have hrel : IndexVarRel.split r ∈ (Derivation.unary (.pos rel) s).relations := List.mem_cons_of_mem _ hr
  have hchild : g.childRel? r.parentVar = some (.split r) := d.childRel?_eq hrel
  have hlabel : r.parentVar ∈ s.labels := s.inner_subset_labels (Derivation.parentVar_mem hr)
  have hroot : denseBounds rel.parentVar n r.parentVar = none :=
    if_neg fun he : r.parentVar = rel.parentVar => d.parentVar_not_mem (he ▸ hlabel)
  have hposition : g.positionGuard (denseBounds rel.parentVar n) ds r.parentVar = some [] := by
    have hchildren : g.getChildren r.parentVar = [r.outerVar, r.innerVar] := getChildren_eq hchild
    rw [ProvenanceGraph.positionGuard, hchildren]
  obtain ⟨c, hiter⟩ := d.position_iterBounds (n := n) hds hnd hlabel
  have hvalue : g.recoverVariable (denseBounds rel.parentVar n) var ds r.parentVar = some (r.recoverVariable var) := by
    rw [ProvenanceGraph.recoverVariable, hchild, d.getUnderivedAncestor_eq (List.mem_cons_of_mem _ hlabel)]
    have hcoord := d.position_coordBounds (n := n) var hds hnd
    simp only [ProvenanceGraph.iterBounds] at hiter
    rw [hiter]
    show (do let parentCoordBound ← g.deriveCoordBounds _ _ _ rel.parentVar; _) = _
    rw [hcoord]
    rfl
  have hunderived : g.underivedGuard (denseBounds rel.parentVar n) ds v r.parentVar = some [] := by
    rw [ProvenanceGraph.underivedGuard, hroot]
  have hchunk : g.chunkGuard (denseBounds rel.parentVar n) ds r.parentVar = some [] := by
    rw [ProvenanceGraph.chunkGuard, hchild]
  rw [ProvenanceGraph.recoverySteps_eq hexact hposition hvalue hunderived hchunk emit, ite_self]
  rfl

end DerivedFrom

/-! ### The nests -/

namespace SplitsOf

variable {g : ProvenanceGraph} {t s : Derivation} {n lo hi : ℕ}

theorem splits (h : SplitsOf n t s lo hi) : s.Splits := by cases h <;> assumption

theorem le (h : SplitsOf n t s lo hi) : lo ≤ hi := by
  cases h with
  | dense => exact Nat.zero_le _
  | position _ _ _ h _ => exact h

theorem leaves_eq (h : SplitsOf n t s lo hi) : t.leaves = s.leaves := by cases h <;> rfl

/-- The values of the loop over `v`. -/
def values (s : Derivation) (lo hi : ℕ) (v : IndexVar) : List ℕ :=
  List.range' (s.span v (lo, hi)).1 ((s.span v (lo, hi)).2 - (s.span v (lo, hi)).1)

/-- What `lowerForall` makes of a nest over the leaves, in any order. -/
theorem lowers (h : SplitsOf n t s lo hi) (d : DerivedFrom g t) (emit : Bool) {order : List IndexVar}
    (horder : order.Perm t.leaves) :
    Lowers (splitRecovery emit t.label lo hi) g (denseBounds t.label n) emit t order fun v _ => values s lo hi v := by
  cases h with
  | dense hs =>
    refine (d.lowers_cuts hs.cuts emit n horder).congr (fun rel hrel => ?_) (funext fun v => funext fun _ => ?_)
    · obtain ⟨r, rfl, -⟩ := hs.rel rel hrel
      refine ⟨rfl, funext fun env => ?_⟩
      simp only [cutRecovery, splitRecovery, IndexVarRel.inChunk, Bool.and_true, Bool.not_and, bne, Bool.or_assoc]
      rfl
    · rw [values, Derivation.span_zero, List.range_eq_range', Nat.sub_zero]
  | @position rel _ lo hi hs hlo hhi hle hcoord =>
    have hnd : order.Nodup := horder.nodup_iff.mpr (Derivation.leaves_sublist_labels _ |>.nodup d.nodup)
    have hexact : ∀ v, g.hasExactBound v = false := fun v => hasExactBound_eq_false fun rel' h => by
      rcases d.position_relation (List.mem_of_find?_eq_some h) with rfl | hr
      · rfl
      · obtain ⟨r, rfl, -⟩ := hs.rel rel' hr
        rfl
    refine ⟨d, horder, fun ds v vs h => ?_, fun ds v vs h rel' hrel => ?_⟩
    · have hsub : (ds ++ [v]).Sublist order := by
        rw [h, List.append_cons ds v vs]
        exact List.sublist_append_left _ _
      have hds : ds ++ [v] ⊆ s.leaves := List.Subset.trans hsub.subset horder.subset
      have hv : v ∈ s.labels := s.leaves_subset_labels (hds (List.mem_append_right _ (List.mem_singleton_self v)))
      obtain ⟨c, hb⟩ := d.position_iterBounds (n := n) hds (hsub.nodup hnd) hv
      refine ⟨_, hb, fun env => ?_, fun _ _ _ => rfl⟩
      have heval := Derivation.eval_derivedBounds c env rel.segment d.represents.2.2.2
        (List.nodup_cons.mp d.nodup).2 hs.cuts hv
      rw [hlo, hhi] at heval
      rw [Bounds.values, values, ← heval]
    · have hsub : ds.Sublist order := h ▸ List.sublist_append_left _ _
      have hds : ds ⊆ s.leaves := List.Subset.trans hsub.subset horder.subset
      have hndd := hsub.nodup hnd
      rcases List.mem_cons.mp (newly_subset_relations ds v _ hrel) with rfl | hr
      · refine ⟨_, d.recoverySteps_position hds hndd (hexact v) emit, fun env rest => ?_⟩
        -- The guard reads the position, which the recovery of the coordinate does not change.
        have hne : rel.posVar ≠ rel.parentVar := fun he => d.parentVar_not_mem (by
          rw [← he, (List.cons.inj d.linked.1).1]
          exact s.label_mem_labels)
        have hguard := eval_outOfBounds (var rel.posVar) rel.segment env
        rw [hlo, hhi, eval_var] at hguard
        simp only [splitRecovery, IndexVarRel.parentVar, Function.update_of_ne hne]
        cases emit
        · rfl
        · by_cases hin : lo ≤ env rel.posVar ∧ env rel.posVar < hi
          · have hoff : ¬(outOfBounds (var rel.posVar) rel.segment).eval env = true := fun h => hguard.mp h hin
            simp [runRecovery, hoff, hin]
          · have hon : (outOfBounds (var rel.posVar) rel.segment).eval env = true := hguard.mpr hin
            have hin : (decide (lo ≤ env rel.posVar) && decide (env rel.posVar < hi)) = false := by
              simpa using hin
            simp [runRecovery, hon, hin]
      · obtain ⟨r, rfl, -⟩ := hs.rel rel' hr
        refine ⟨_, d.recoverySteps_position_split hds hndd (hexact v) emit hr, fun env rest => ?_⟩
        have hne : (r.parentVar != rel.parentVar) = true := bne_iff_ne.mpr fun he =>
          d.parentVar_not_mem (he ▸ s.inner_subset_labels (Derivation.parentVar_mem hr))
        have hpass : ∀ env', (splitRecovery emit (Derivation.unary (.pos rel) s).label lo hi).passes (.split r) env' = true := by
          intro env'
          show (!emit || ((r.parentVar != rel.parentVar) || _)) = true
          rw [hne, Bool.true_or, Bool.or_true]
        rw [if_pos (hpass _)]
        rfl

end SplitsOf

end Scheduling
end Taco
