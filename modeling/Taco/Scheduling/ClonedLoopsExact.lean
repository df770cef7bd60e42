import Taco.Scheduling.ClonedRecoveries

/-! Which iterations the copy without guards runs. -/

namespace Taco
namespace Scheduling
open Expr Strips

/-! ### The offset of the guard -/

/-- How far the upper bound of a loop that is not defined is from its first value. -/
def excess (ds : List IndexVar) (s : Derivation) (r : ℕ × ℕ) (w : IndexVar) : ℕ :=
  if w ∈ undefinedLeaves ds s then (s.span w r).2 - (s.span w r).1 else 0

/-- What a recovered variable grows by when the loops below it, that are not defined, have their upper bounds. -/
def overshoot (ds : List IndexVar) (s : Derivation) (r : ℕ × ℕ) : IndexVarRel → ℕ
  | .split rel => excess ds s r rel.outerVar * rel.splitFactor + excess ds s r rel.innerVar
  | _ => 0

def rootRel? : Derivation → Option IndexVarRel
  | .leaf _ => none
  | .unary rel _ | .binary rel _ _ => some rel

/-- What the guard adds to the first value: the overshoot of the guarded variable, and that of the first variable that
    is recovered. -/
def guardOffset (ds : List IndexVar) (t s : Derivation) (r : ℕ × ℕ) : ℕ :=
  ((rootRel? s).map (overshoot ds s r)).getD 0 +
    ((recoveries ds (undefinedLeaves ds s) t).head?.map (overshoot ds s r)).getD 0

namespace Derivation

theorem span_label {t : Derivation} (ht : t.Cuts) (r : ℕ × ℕ) : t.span t.label r = r := by
  cases t with
  | leaf v => rfl
  | unary rel t => exact absurd ht id
  | binary rel o i => exact if_pos rfl

/-- A part of a range that is not empty is not empty. -/
theorem span_lt {w : IndexVar} : ∀ {t : Derivation} {r : ℕ × ℕ}, t.Splits → r.1 < r.2 → (t.span w r).1 < (t.span w r).2
  | leaf _, _, _, h => h
  | unary .., _, ht, _ => absurd ht id
  | binary (.split rel) o i, r, ⟨hs, ho, hi⟩, h => by
    have hchild : ∀ c, ((IndexVarRel.split rel).span c r).1 < ((IndexVarRel.split rel).span c r).2 := fun c => by
      rw [IndexVarRel.span]
      split_ifs
      · exact (lt_ceilDiv hs).mpr (lt_of_le_of_lt (Nat.div_mul_le_self _ _) h)
      · exact hs
    rw [span]
    split_ifs
    · exact h
    · exact span_lt ho (hchild _)
    · exact span_lt hi (hchild _)
  | binary (.divide _) _ _, _, ht, _ => absurd ht.1 id
  | binary (.pos _) _ _, _, ht, _ => absurd ht.1 id
  | binary (.bound _) _ _, _, ht, _ => absurd ht.1 id

theorem span_le {w : IndexVar} : ∀ {t : Derivation} {r : ℕ × ℕ}, t.Splits → r.1 ≤ r.2 → (t.span w r).1 ≤ (t.span w r).2
  | leaf _, _, _, h => h
  | unary .., _, ht, _ => absurd ht id
  | binary (.split rel) o i, r, ⟨_, ho, hi⟩, h => by
    have hchild : ∀ c, ((IndexVarRel.split rel).span c r).1 ≤ ((IndexVarRel.split rel).span c r).2 := fun c => by
      rw [IndexVarRel.span]
      split_ifs
      · exact Nat.div_le_div_right (Nat.le_add_right_of_le h)
      · exact Nat.zero_le _
    rw [span]
    split_ifs
    · exact h
    · exact span_le ho (hchild _)
    · exact span_le hi (hchild _)
  | binary (.divide _) _ _, _, ht, _ => absurd ht.1 id
  | binary (.pos _) _ _, _, ht, _ => absurd ht.1 id
  | binary (.bound _) _ _, _, ht, _ => absurd ht.1 id

end Derivation

theorem recoveries_subset : ∀ (us defined : List IndexVar) (t : Derivation), recoveries defined us t ⊆ t.relations
  | [], _, _ => List.nil_subset _
  | u :: us, defined, t => List.append_subset.mpr ⟨newly_subset_relations defined u t, recoveries_subset us _ t⟩

namespace SplitsOf

variable {g : ProvenanceGraph} {t s : Derivation} {n lo hi : ℕ} {ds : List IndexVar}

/-- The recovered values for the upper bounds. -/
theorem value_bound (h : SplitsOf n t s lo hi) (d : DerivedFrom g t) (hsplit : s.label ∉ s.leaves) {rel : IndexVarRel}
    (hrel : rel ∈ t.relations) (env : Env) :
    (splitRecovery false t.label lo hi).value rel (boundValues ds s (lo, hi) env) =
      (splitRecovery false t.label lo hi).value rel (firstValues ds s (lo, hi) env) + overshoot ds s (lo, hi) rel := by
  have hbound : ∀ w, boundValues ds s (lo, hi) env w = firstValues ds s (lo, hi) env w + excess ds s (lo, hi) w := fun w => by
    rw [boundValues, firstValues, excess]
    split_ifs
    · exact (Nat.add_sub_of_le (Derivation.span_le h.splits h.le)).symm
    · rfl
  have hsplits : ∀ r : SplitRelNode, (splitRecovery false t.label lo hi).value (.split r) (boundValues ds s (lo, hi) env) =
      (splitRecovery false t.label lo hi).value (.split r) (firstValues ds s (lo, hi) env) +
        overshoot ds s (lo, hi) (.split r) := fun r => by
    simp only [splitRecovery, overshoot, hbound]
    ring
  cases h with
  | dense hs =>
    obtain ⟨r, rfl, -⟩ := hs.rel rel hrel
    exact hsplits r
  | @position rel₀ _ _ _ hs =>
    rcases List.mem_cons.mp hrel with rfl | hr
    · have hposVar : rel₀.posVar ∉ undefinedLeaves ds s := fun hu =>
        hsplit (d.posVar_eq ▸ (mem_undefinedLeaves.mp hu).1)
      simp only [splitRecovery, overshoot, boundValues, firstValues, if_neg hposVar, Nat.add_zero]
    · obtain ⟨r, rfl, -⟩ := hs.rel rel hr
      exact hsplits r

/-- The copies of a loop, and when the guard in front of them lets the one without guards run. -/
theorem lowerForallCloned_eq (h : SplitsOf n t s lo hi) (d : DerivedFrom g t) (hsplit : s.label ∉ s.leaves) {v : IndexVar}
    {vs : List IndexVar} (horder : (ds ++ v :: vs).Perm t.leaves) :
    ∃ loop, g.lowerForallCloned (denseBounds t.label n) ds (v :: vs) = some loop ∧
      g.lowerForall (denseBounds t.label n) true ds (v :: vs) = some loop.unvectorizedLoop ∧
      g.lowerForall (denseBounds t.label n) false ds (v :: vs) = some loop.vectorizedLoop ∧
      ∀ env, Recovered (splitRecovery false t.label lo hi) ds env t →
        ∃ env', runRecovery loop.guardRecoverySteps env = some env' ∧
          (∀ w, (w ∉ t.inner ∨ w ∈ covered ds t) → env' w = env w) ∧
          Recovered (splitRecovery false t.label lo hi) t.leaves (firstValues ds s (lo, hi) env') t ∧
          (loop.guardCondition.eval env' = false ↔
            lo ≤ env' s.label ∧ env' s.label + guardOffset ds t s (lo, hi) < hi) := by
  have hnd : (ds ++ v :: vs).Nodup := horder.nodup_iff.mpr (t.leaves_sublist_labels.nodup d.nodup)
  have hndl : t.leaves.Nodup := t.leaves_sublist_labels.nodup d.nodup
  have hsub : ds.Sublist (ds ++ v :: vs) := List.sublist_append_left _ _
  have hds : ds ⊆ t.leaves := List.Subset.trans hsub.subset horder.subset
  have hndd := hsub.nodup hnd
  have hv : v ∈ t.leaves := horder.subset (List.mem_append_right _ List.mem_cons_self)
  have hvd : v ∉ ds := fun hd => (List.nodup_append.mp hnd).2.2 v hd v List.mem_cons_self rfl
  obtain ⟨guarded, hguarded, -⟩ := (h.lowers d true horder).run (v :: vs) ds [] (by rw [List.append_nil])
  obtain ⟨unguarded, hunguarded, -⟩ := (h.lowers d false horder).run (v :: vs) ds [] (by rw [List.append_nil])
  obtain ⟨hrep, hheight, -, -, hrels, hlabels⟩ := h.represents d
  obtain ⟨rel, hrel, hlabel, hroot⟩ : ∃ rel ∈ s.relations, s.label = rel.parentVar ∧ rootRel? s = some rel := by
    cases s with
    | leaf w => exact absurd (List.mem_singleton_self w) hsplit
    | unary rel s => exact ⟨rel, List.mem_cons_self, rfl, rfl⟩
    | binary rel o i => exact ⟨rel, List.mem_cons_self, rfl, rfl⟩
  -- The state after all loop variables.
  have hstart : Guards (splitRecovery false t.label lo hi) t s (lo, hi) ds ds []
      ⟨var, var, ds, [], none⟩ := by
    refine ⟨fun _ _ => Iff.rfl, fun w hw hd => absurd (hds hd) (Derivation.not_mem_leaves_of_inner d.nodup hw),
      fun env w => ?_, fun env w => ?_, fun _ _ => rfl, rfl⟩
    · exact (if_neg fun hw => (mem_undefinedLeaves.mp hw.2).2 hw.1).symm
    · exact (if_neg fun hw => (mem_undefinedLeaves.mp hw.2).2 hw.1).symm
  obtain ⟨st, hst, hguards⟩ := guardChildren_eq h d hds hndd s.leaves ds [] ⟨var, var, ds, [], none⟩
    (h.leaves_eq ▸ List.Subset.refl _) (h.leaves_eq ▸ hndl) hds (List.Subset.refl _) (fun _ _ hw => hw) hstart
  rw [List.nil_append] at hguards
  have hdefined : ∀ w ∈ undefinedLeaves ds s, w ∈ (undefinedLeaves ds s).reverse ++ ds := fun w hw =>
    List.mem_append_left _ (List.mem_reverse.mpr hw)
  have hmin : ∀ env w, (st.minChildValues w).eval env = firstValues ds s (lo, hi) env w := fun env w => by
    have hiff : w ∈ (undefinedLeaves ds s).reverse ++ ds ∧ w ∈ undefinedLeaves ds s ↔ w ∈ undefinedLeaves ds s :=
      ⟨And.right, fun hw => ⟨hdefined w hw, hw⟩⟩
    rw [hguards.minValue env w, firstValues]
    exact if_congr hiff rfl rfl
  have hmax : ∀ env w, (st.maxChildValues w).eval env = boundValues ds s (lo, hi) env w := fun env w => by
    have hiff : w ∈ (undefinedLeaves ds s).reverse ++ ds ∧ w ∈ undefinedLeaves ds s ↔ w ∈ undefinedLeaves ds s :=
      ⟨And.right, fun hw => ⟨hdefined w hw, hw⟩⟩
    rw [hguards.maxValue env w, boundValues]
    exact if_congr hiff rfl rfl
  obtain ⟨x, hx, hxval⟩ := h.recoverVariable_eq d st.minChildValues hds hndd (hrels hrel)
  obtain ⟨y, hy, hyval⟩ := h.recoverVariable_eq d st.maxChildValues hds hndd (hrels hrel)
  rw [← hlabel] at hx hy
  have hvalues : g.guardValuesAll (denseBounds t.label n) ds ⟨var, var, ds, [], none⟩ (g.varsWithGuard ds) =
      some ([(s.label, (x, y))], st) := by
    rw [h.varsWithGuard_eq d hsplit hds hv hvd]
    have hone : g.guardValues (denseBounds t.label n) ds ⟨var, var, ds, [], none⟩ s.label = some ((x, y), st) := by
      rw [ProvenanceGraph.guardValues, getFullyDerivedDescendants_eq hrep hheight, hst]
      show (do let minVarValue ← g.recoverVariable _ st.minChildValues ds s.label; _) = _
      rw [hx]
      show (do let maxVarValue ← g.recoverVariable _ st.maxChildValues ds s.label; _) = _
      rw [hy]
      rfl
    rw [ProvenanceGraph.guardValuesAll, hone]
    rfl
  obtain ⟨b, hb, hbval⟩ := h.iterBounds_eq d hds hndd s.label_mem_labels
  rw [Derivation.span_label h.splits.cuts] at hbval
  let off := st.maxOffset.getD (literal 0)
  let maxGuard := Condition.gte (add y off) b.2
  let guard := if b.1.literal? = some 0 then maxGuard else .or (.lt x b.1) maxGuard
  have hguard : g.guardCondition (denseBounds t.label n) ds off [(s.label, (x, y))] none = some guard := by
    rw [ProvenanceGraph.guardCondition, ProvenanceGraph.guardConditionFor, hb]
    rfl
  refine ⟨⟨st.guardRecoverySteps, guard, guarded, unguarded⟩, ?_, hguarded, hunguarded, fun env henv => ?_⟩
  · rw [ProvenanceGraph.lowerForallCloned, hvalues]
    show (do let guard ← g.guardCondition (denseBounds t.label n) ds off [(s.label, (x, y))] none; _) = _
    rw [hguard, hguarded, hunguarded]
    rfl
  have hus : undefinedLeaves ds s ⊆ t.leaves := fun w hw => h.leaves_eq ▸ (mem_undefinedLeaves.mp hw).1
  have hkeep : ∀ w, w ∉ undefinedLeaves ds s → ∀ env, firstValues ds s (lo, hi) env w = env w := fun w hw env => if_neg hw
  have hstart : Recovered (splitRecovery false t.label lo hi) ds (firstValues ds s (lo, hi) env) t := by
    refine henv.congr d.linked (fun w _ hw => ⟨hw, (hkeep w ?_ env).symm⟩) fun w hw => (hkeep w ?_ env).symm
    · exact fun hu => (mem_undefinedLeaves.mp hu).2 hw
    · exact fun hu => Derivation.not_mem_leaves_of_inner d.nodup (covered_subset_inner _ t hw) (hus hu)
  obtain ⟨hall, hframe⟩ := recoveries_recovered d.linked d.nodup h.leaves_eq (fun _ _ => rfl) (undefinedLeaves ds s) ds env hus
    ((h.leaves_eq ▸ hndl).filter _) (fun w hw => (mem_undefinedLeaves.mp hw).2) hstart
  let env' := declareRels (splitRecovery false t.label lo hi) (firstValues ds s (lo, hi))
    (recoveries ds (undefinedLeaves ds s) t) env
  have hall : Recovered (splitRecovery false t.label lo hi) t.leaves (firstValues ds s (lo, hi) env') t := by
    refine (recovered_perm d.linked fun w => ?_).mp hall
    rw [List.mem_append, List.mem_reverse, mem_undefinedLeaves, ← h.leaves_eq]
    exact ⟨fun hw => hw.elim And.left (@hds w), fun hw => (em (w ∈ ds)).elim .inr fun hd => .inl ⟨hw, hd⟩⟩
  have hx' : x.eval env' = env' s.label := by
    rw [hxval env' _ fun w _ => hmin env' w, ← (hall.all (List.Subset.refl _) (hrels hrel)).1, ← hlabel]
    exact hkeep _ (fun hu => hsplit (mem_undefinedLeaves.mp hu).1) env'
  have hy' : y.eval env' = env' s.label + ((rootRel? s).map (overshoot ds s (lo, hi))).getD 0 := by
    rw [hyval env' _ fun w _ => hmax env' w, h.value_bound d hsplit (hrels hrel), ← hxval env' _ fun w _ => hmin env' w, hx', hroot]
    rfl
  have hoff : off.eval env' = ((recoveries ds (undefinedLeaves ds s) t).head?.map (overshoot ds s (lo, hi))).getD 0 := by
    have hoffset := hguards.offset
    have hsubset : recoveries ds (undefinedLeaves ds s) t ⊆ t.relations := recoveries_subset _ _ t
    cases hR : recoveries ds (undefinedLeaves ds s) t with
    | nil =>
      have hnone : st.maxOffset = none := by
        rw [show recoveries ds (s.leaves.filter fun w => w ∉ ds) t = [] from hR] at hoffset
        exact hoffset
      simp only [off, hnone]
      rfl
    | cons r rs =>
      rw [show recoveries ds (s.leaves.filter fun w => w ∉ ds) t = r :: rs from hR] at hoffset
      obtain ⟨z, hz, hzval⟩ := hoffset
      simp only [off, hz, Option.getD_some, List.head?_cons, Option.map_some]
      rw [hzval, h.value_bound d hsplit (hsubset (hR ▸ List.mem_cons_self)), Nat.add_sub_cancel_left]
  have heval : guard.eval env' = false ↔ lo ≤ x.eval env' ∧ y.eval env' + off.eval env' < hi := by
    have hmaxGuard : maxGuard.eval env' = false ↔ y.eval env' + off.eval env' < hi := by
      simp [maxGuard, Condition.eval, (hbval env').2]
    by_cases h0 : b.1.literal? = some 0
    · have hlo : lo = 0 := by
        have heval : b.1.eval env' = lo := (hbval env').1
        rw [← heval]
        cases hb1 : b.1 <;> simp_all only [literal?, Option.some.injEq, reduceCtorEq, eval_literal]
      simp only [guard, if_pos h0, hmaxGuard, hlo, Nat.zero_le, true_and]
    · simp only [guard, if_neg h0, Condition.eval, Bool.or_eq_false_iff, hmaxGuard, decide_eq_false_iff_not, not_lt,
        (hbval env').1]
  refine ⟨env', ?_, hframe, hall, ?_⟩
  · have hsteps := hguards.steps env []
    rwa [List.append_nil] at hsteps
  · rw [heval, hx', hy', hoff, Nat.add_assoc]
    rfl

end SplitsOf

/-! ### The values in the iterations -/

/-- How far the variable runs past its first value in the loops that are not defined. -/
def reach (ds : List IndexVar) (s : Derivation) (r : ℕ × ℕ) : ℕ :=
  s.compose fun w => if w ∈ undefinedLeaves ds s then (s.span w r).2 - 1 - (s.span w r).1 else 0

namespace SplitsOf

variable {g : ProvenanceGraph} {t s : Derivation} {n lo hi : ℕ} {ds : List IndexVar}

/-- Only the guard at the root tells the two copies apart. -/
theorem recovered_guard_below {root : IndexVar} {defined : List IndexVar} {e : Env} : ∀ {u : Derivation}, u.Splits →
    root ∉ u.labels → (Recovered (splitRecovery true root lo hi) defined e u ↔
      Recovered (splitRecovery false root lo hi) defined e u)
  | .leaf _, _, _ => Iff.rfl
  | .unary .., hu, _ => absurd hu id
  | .binary (.split rel) o i, ⟨_, ho, hi'⟩, hroot => by
    obtain ⟨hne, hroot⟩ := List.ne_and_not_mem_of_not_mem_cons hroot
    rw [List.mem_append, not_or] at hroot
    have hpass : (splitRecovery true root lo hi).passes (.split rel) e = true := by
      have hne : rel.parentVar ≠ root := Ne.symm hne
      simp [splitRecovery, hne]
    refine and_congr (and_congr (recovered_guard_below ho hroot.1) (recovered_guard_below hi' hroot.2)) ?_
    rw [hpass]
    rfl
  | .binary (.divide _) _ _, hu, _ => absurd hu.1 id
  | .binary (.pos _) _ _, hu, _ => absurd hu.1 id
  | .binary (.bound _) _ _, hu, _ => absurd hu.1 id

theorem recovered_guard (h : SplitsOf n t s lo hi) (d : DerivedFrom g t) (hsplit : s.label ∉ s.leaves)
    {defined : List IndexVar} {e : Env} : Recovered (splitRecovery true t.label lo hi) defined e t ↔
      Recovered (splitRecovery false t.label lo hi) defined e t ∧
        (t.leaves ⊆ defined → lo ≤ e s.label ∧ e s.label < hi) := by
  cases h with
  | dense hs =>
    match t, hs, d, hsplit with
    | .leaf v, _, _, hsplit => exact absurd (List.mem_singleton_self v) hsplit
    | .binary (.split rel) _ _, ⟨_, ho, hi'⟩, d, _ =>
      obtain ⟨hpo, hpi, -, -, -⟩ := Derivation.nodup_binary d.nodup
      have hpass : (splitRecovery true rel.parentVar 0 n).passes (.split rel) e = decide (e rel.parentVar < n) := by
        simp [splitRecovery]
      simp only [Recovered, Derivation.label, IndexVarRel.parentVar] at *
      rw [recovered_guard_below ho hpo, recovered_guard_below hi' hpi, hpass]
      have hoff : (splitRecovery false rel.parentVar 0 n).passes (.split rel) e = true := rfl
      have hval : (splitRecovery true rel.parentVar 0 n).value (.split rel) e =
          (splitRecovery false rel.parentVar 0 n).value (.split rel) e := rfl
      rw [hoff, hval, decide_eq_true_iff]
      simp only [Derivation.leaves, Nat.zero_le, true_and, and_true, and_assoc, imp_and]
  | @position rel _ _ _ hs =>
    have hbelow : Recovered (splitRecovery true rel.parentVar lo hi) defined e s ↔
        Recovered (splitRecovery false rel.parentVar lo hi) defined e s := recovered_guard_below hs d.parentVar_not_mem
    have hpass : (decide (lo ≤ e rel.posVar) && decide (e rel.posVar < hi)) = true ↔ lo ≤ e s.label ∧ e s.label < hi := by
      rw [Bool.and_eq_true, decide_eq_true_iff, decide_eq_true_iff, d.posVar_eq]
    show (Recovered (splitRecovery true rel.parentVar lo hi) defined e s ∧ (s.leaves ⊆ defined →
        e rel.parentVar = rel.coordArray (e rel.posVar) ∧ (decide (lo ≤ e rel.posVar) && decide (e rel.posVar < hi)) = true)) ↔
      (Recovered (splitRecovery false rel.parentVar lo hi) defined e s ∧ (s.leaves ⊆ defined →
        e rel.parentVar = rel.coordArray (e rel.posVar) ∧ true = true)) ∧ (s.leaves ⊆ defined → _)
    rw [hbelow, hpass]
    simp only [and_true, and_assoc, imp_and]

/-! ### The iterations of the copies -/

section

variable (h : SplitsOf n t s lo hi) (d : DerivedFrom g t) {v : IndexVar} {vs : List IndexVar} {env e : Env}

include h d in
/-- The split variable is composed of the leaves. -/
theorem label_eq {emit : Bool} (hrec : Recovered (splitRecovery emit t.label lo hi) t.leaves e t) :
    e s.label = s.compose e := by
  cases h with
  | dense hs => exact hrec.compose (fun _ _ => rfl) d.linked hs (List.Subset.refl _)
  | position hs => exact hrec.1.compose (fun _ _ => rfl) d.linked.2 hs (List.Subset.refl _)

include h d in
/-- Within the range of the split variable, the underived variable is within its dimension. -/
theorem label_lt {emit : Bool} (hrec : Recovered (splitRecovery emit t.label lo hi) t.leaves e t) (hlo : lo ≤ e s.label)
    (hhi : e s.label < hi) : e t.label < n := by
  cases h with
  | dense => exact hhi
  | @position rel _ _ _ _ _ _ _ hcoord =>
    have hval : e rel.parentVar = rel.coordArray (e rel.posVar) := (hrec.2 (List.Subset.refl _)).1
    rw [← d.posVar_eq] at hlo hhi
    exact hval ▸ hcoord _ hlo hhi

end

end SplitsOf

/-- The values of the loops, where those that are not defined have their last value. -/
def lastValues (ds : List IndexVar) (s : Derivation) (r : ℕ × ℕ) (env : Env) (w : IndexVar) : ℕ :=
  if w ∈ undefinedLeaves ds s then (s.span w r).2 - 1 else env w

/-- Every value of the loops around the copies that passes the guard also passes with the last values of the loops that
    are not defined. -/
def GuardCovers (ds : List IndexVar) (t s : Derivation) (lo hi : ℕ) : Prop :=
  ∀ e : Env, (∀ w ∈ ds, e w ∈ SplitsOf.values s lo hi w) → lo ≤ s.compose (firstValues ds s (lo, hi) e) →
    s.compose (firstValues ds s (lo, hi) e) + guardOffset ds t s (lo, hi) < hi →
      s.compose (firstValues ds s (lo, hi) e) + reach ds s (lo, hi) < hi

namespace SplitsOf

variable {g : ProvenanceGraph} {t s : Derivation} {n lo hi : ℕ} {ds : List IndexVar}

/-- Leaves that are at most their last values compose to at most the reach. -/
theorem compose_last (hsplits : s.Splits) (hlt : lo < hi) (env : Env) :
    s.compose (lastValues ds s (lo, hi) env) = s.compose (firstValues ds s (lo, hi) env) + reach ds s (lo, hi) := by
  rw [reach, ← Derivation.compose_add]
  refine Derivation.compose_congr fun w _ => ?_
  have hspan : (s.span w (lo, hi)).1 < (s.span w (lo, hi)).2 := Derivation.span_lt hsplits hlt
  rw [lastValues, firstValues]
  split_ifs
  · omega
  · rfl

section

variable (h : SplitsOf n t s lo hi) (d : DerivedFrom g t) {v : IndexVar} {vs : List IndexVar}
  (horder : (ds ++ v :: vs).Perm t.leaves)

include h d horder in
theorem mem_undefined {w : IndexVar} : w ∈ undefinedLeaves ds s ↔ w ∈ v :: vs := by
  obtain ⟨-, -, hdisj⟩ := List.nodup_append.mp (horder.nodup_iff.mpr (t.leaves_sublist_labels.nodup d.nodup))
  rw [mem_undefinedLeaves, ← h.leaves_eq, ← horder.mem_iff, List.mem_append]
  exact ⟨fun hw => hw.1.resolve_left hw.2, fun hw => ⟨.inr hw, fun hd => hdisj w hd w hw rfl⟩⟩

include h d horder in
/-- The iterations of a copy: those of the loops that pass the guard, if it has one. -/
theorem run_copy (hsplit : s.label ∉ s.leaves) (emit : Bool) {nest : LoopNest} (hnest : g.lowerForall (denseBounds t.label n) emit ds (v :: vs) = some nest)
    {env : Env} (henv : Recovered (splitRecovery false t.label lo hi) ds env t) :
    (nest.run env).Pairwise (Before (v :: vs)) ∧ ∀ e, e ∈ nest.run env ↔
      (Recovered (splitRecovery false t.label lo hi) t.leaves e t ∧ (∀ w ∈ v :: vs, e w ∈ values s lo hi w) ∧
        ∀ w, w ∉ v :: vs → (w ∈ t.inner → w ∈ covered ds t) → e w = env w) ∧
      (emit = true → lo ≤ e s.label ∧ e s.label < hi) := by
  have hv : v ∈ t.leaves ∧ v ∉ ds := by
    have hu := (h.mem_undefined d horder).mpr (List.mem_cons_self (a := v) (l := vs))
    exact ⟨h.leaves_eq ▸ (mem_undefinedLeaves.mp hu).1, (mem_undefinedLeaves.mp hu).2⟩
  have hds : Recovered (splitRecovery emit t.label lo hi) ds env t := by
    cases emit
    · exact henv
    · exact (h.recovered_guard d hsplit).mpr ⟨henv, fun hsub => absurd (hsub hv.1) hv.2⟩
  have hall : ∀ e, Recovered (splitRecovery emit t.label lo hi) (ds ++ v :: vs) e t ↔
      Recovered (splitRecovery false t.label lo hi) t.leaves e t ∧ (emit = true → lo ≤ e s.label ∧ e s.label < hi) :=
    fun e => by
      rw [recovered_perm d.linked fun w => horder.mem_iff]
      cases emit
      · simp only [Bool.false_eq_true, false_implies, and_true]
      · rw [h.recovered_guard d hsplit]
        exact and_congr_right' ⟨fun hb _ => hb (List.Subset.refl _), fun hb _ => hb rfl⟩
  have hcovered : ∀ w, w ∈ covered (ds ++ v :: vs) t ↔ w ∈ t.inner := fun w =>
    ⟨fun hw => covered_subset_inner _ t hw, fun hw => inner_subset_covered horder.symm.subset hw⟩
  obtain ⟨nest', hnest', hrun⟩ := (h.lowers d emit horder).run (v :: vs) ds [] (by rw [List.append_nil])
  obtain rfl : nest' = nest := Option.some.inj (hnest'.symm.trans hnest)
  refine ⟨(hrun env hds).1, fun e => ?_⟩
  rw [(hrun env hds).2 e, hall]
  simp only [hcovered]
  tauto

include h d in
/-- The first value of the split variable in the iterations of the copies. -/
theorem first_label {env : Env}
    (hrec : Recovered (splitRecovery false t.label lo hi) t.leaves (firstValues ds s (lo, hi) env) t)
    (hsplit : s.label ∉ s.leaves) : env s.label = s.compose (firstValues ds s (lo, hi) env) := by
  rw [← h.label_eq d hrec]
  exact (if_neg fun hu => hsplit (mem_undefinedLeaves.mp hu).1).symm

include h d horder in
/-- The values of the loops around the copies are those of one of their iterations. -/
theorem exists_outer {outer : LoopNest} (houter : g.lowerForall (denseBounds t.label n) true [] ds = some outer)
    (hsplit : s.label ∉ s.leaves) (e : Env) (he : ∀ w ∈ ds, e w ∈ values s lo hi w) :
    ∃ env ∈ outer.run env, Recovered (splitRecovery false t.label lo hi) ds env t ∧ ∀ w ∈ ds, env w = e w := by
  obtain ⟨env, hkeep, hvalues⟩ := exists_values (splitRecovery false t.label lo hi) e d.linked d.nodup
  have hleaf : ∀ w ∈ ds, env w = e w := fun w hw =>
    hkeep w fun hi => Derivation.not_mem_leaves_of_inner d.nodup hi (horder.subset (List.mem_append_left _ hw))
  have hrec : Recovered (splitRecovery false t.label lo hi) ds env t :=
    recovered_of_values fun rel hrel => ⟨hvalues rel hrel, rfl⟩
  obtain ⟨hu, hud⟩ := mem_undefinedLeaves.mp ((h.mem_undefined d horder).mpr List.mem_cons_self)
  obtain ⟨nest, hnest, hrun⟩ := (h.lowers d true horder).run ds [] (v :: vs) rfl
  obtain rfl : nest = outer := Option.some.inj (hnest.symm.trans houter)
  refine ⟨env, ((hrun env (recovered_nil env t)).2 env).mpr ⟨?_, fun w hw => hleaf w hw ▸ he w hw, fun _ _ _ => rfl⟩,
    hrec, hleaf⟩
  exact (h.recovered_guard d hsplit).mpr ⟨hrec, fun hsub => absurd (hsub (h.leaves_eq ▸ hu)) hud⟩

include h d horder in
/-- The copies run the iteration in which all their loops have their last value, when they run any. -/
theorem exists_last {nest : LoopNest} (hnest : g.lowerForall (denseBounds t.label n) false ds (v :: vs) = some nest)
    (hsplit : s.label ∉ s.leaves) (hlt : lo < hi) {env : Env} (henv : Recovered (splitRecovery false t.label lo hi) ds env t) :
    ∃ last ∈ nest.run env, last s.label = s.compose (lastValues ds s (lo, hi) env) := by
  obtain ⟨last, hlast, hrels⟩ := exists_values (splitRecovery false t.label lo hi) (lastValues ds s (lo, hi) env)
    d.linked d.nodup
  have hrec : ∀ defined, Recovered (splitRecovery false t.label lo hi) defined last t := fun _ =>
    recovered_of_values fun rel hrel => ⟨hrels rel hrel, rfl⟩
  have hleaf : ∀ w ∈ t.leaves, last w = lastValues ds s (lo, hi) env w := fun w hw =>
    hlast w fun hi => Derivation.not_mem_leaves_of_inner d.nodup hi hw
  refine ⟨last, ((h.run_copy d horder hsplit false hnest henv).2 last).mpr
    ⟨⟨hrec _, fun w hw => ?_, fun w hw hin => ?_⟩, fun hf => absurd hf Bool.false_ne_true⟩, ?_⟩
  · have hspan : (s.span w (lo, hi)).1 < (s.span w (lo, hi)).2 := Derivation.span_lt h.splits hlt
    rw [hleaf w (horder.subset (List.mem_append_right _ hw)), lastValues, if_pos ((h.mem_undefined d horder).mpr hw), values,
      List.mem_range'_1]
    omega
  · by_cases hwi : w ∈ t.inner
    · refine (hrec ds).unique d.linked (fun u hu hud => ?_) henv w (hin hwi)
      rw [hleaf u hu, lastValues, if_neg fun hu => (mem_undefinedLeaves.mp hu).2 hud]
    · rw [hlast w hwi, lastValues, if_neg fun hu => hw ((h.mem_undefined d horder).mp hu)]
  · rw [h.label_eq d (hrec _)]
    exact Derivation.compose_congr fun w hw => hleaf w (h.leaves_eq ▸ hw)

include h d horder in
/-- In the iterations of the copies, the split variable is between its first and its last value. -/
theorem label_between {env e : Env} (he : Recovered (splitRecovery false t.label lo hi) t.leaves e t)
    (hvalues : ∀ w ∈ v :: vs, e w ∈ values s lo hi w) (hkeep : ∀ w ∈ ds, e w = env w) :
    s.compose (firstValues ds s (lo, hi) env) ≤ e s.label ∧ e s.label ≤ s.compose (lastValues ds s (lo, hi) env) := by
  have hbounds : ∀ w ∈ s.leaves, firstValues ds s (lo, hi) env w ≤ e w ∧ e w ≤ lastValues ds s (lo, hi) env w := by
    intro w hw
    rw [firstValues, lastValues]
    split_ifs with hu
    · have hw := hvalues w ((h.mem_undefined d horder).mp hu)
      rw [values, List.mem_range'_1] at hw
      omega
    · have hd : w ∈ ds := by_contra fun hd => hu (mem_undefinedLeaves.mpr ⟨hw, hd⟩)
      rw [hkeep w hd]
      exact ⟨le_refl _, le_refl _⟩
  rw [h.label_eq d he]
  exact ⟨Derivation.compose_mono fun w hw => (hbounds w hw).1, Derivation.compose_mono fun w hw => (hbounds w hw).2⟩

end

end SplitsOf

end Scheduling
end Taco
