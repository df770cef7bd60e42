import Taco.Scheduling.BoundedSplits

/-! The nests in which the guard of a bounded variable is left out. -/

namespace Taco
namespace Scheduling
open Expr Strips

/-- `lowerForall` leaves the guard of `i` out in the loop over `v`, which recovers it. -/
def SkipsGuard (g : ProvenanceGraph) (i : IndexVar) (n : ℕ) (ds : List IndexVar) (v : IndexVar) : Prop :=
  g.hasExactBound v = true ∨ g.hasDirectDivBound (denseBounds i n) ds v i = some true

/-- The recovery of splits and bounds, without guards. -/
def boundRecovery : Recovery where
  value rel env := rel.parentValue (rel.stripSize 0) env
  passes _ _ := true
  value_congr rel _ _ h := rel.parentValue_congr _ h
  passes_congr _ _ _ _ := rfl

/-- The values of the loop over `v` in a nest of this order. -/
def loopValues (g : ProvenanceGraph) (underivedBounds : IndexVar → Option Bounds) (order : List IndexVar) (v : IndexVar)
    (env : Env) : List ℕ :=
  match g.iterBounds underivedBounds (order.takeWhile (· != v) ++ [v]) v with
  | some b => Bounds.values b env
  | none => []

theorem takeWhile_order {ds vs : List IndexVar} {v : IndexVar} (h : v ∉ ds) :
    (ds ++ v :: vs).takeWhile (· != v) = ds := by
  rw [List.takeWhile_append_of_pos fun w hw => bne_iff_ne.mpr (ne_of_mem_of_not_mem hw h), List.takeWhile_cons_of_neg (by simp),
    List.append_nil]

/-- Recovery code that no guard is part of. -/
theorem recoverySteps_unguarded {g : ProvenanceGraph} {underivedBounds : IndexVar → Option Bounds} {ds : List IndexVar}
    {v varToRecover : IndexVar} {recoveredValue : Expr}
    (hguards : g.hasExactBound v = false → g.positionGuard underivedBounds ds varToRecover = some [] ∧
      g.underivedGuard underivedBounds ds v varToRecover = some [])
    (hvalue : g.recoverVariable underivedBounds var ds varToRecover = some recoveredValue)
    (hchunk : g.chunkGuard underivedBounds ds varToRecover = some []) :
    g.recoverySteps underivedBounds ds true v varToRecover = some [.varDecl varToRecover recoveredValue] := by
  rw [ProvenanceGraph.recoverySteps, hvalue, hchunk]
  cases hexact : g.hasExactBound v
  · rw [(hguards hexact).1, (hguards hexact).2]
    rfl
  · rfl

namespace DerivedFrom

variable {g : ProvenanceGraph} {rel : BoundRelNode} {s : Derivation} (d : DerivedFrom g (.unary (.bound rel) s))
  (hs : s.Splits)

include d

theorem boundVar_eq : rel.boundVar = s.label := (List.cons.inj d.linked.1).1

theorem bound_parentVar_not_mem : rel.parentVar ∉ s.labels := (List.nodup_cons.mp d.nodup).1

theorem bound_relation {rel' : IndexVarRel} (h : rel' ∈ g.relations) : rel' = .bound rel ∨ rel' ∈ s.relations :=
  List.mem_cons.mp (d.perm.mem_iff.mp h)

include hs in
theorem bound_not_pos : ∀ rel' ∈ g.relations, rel'.isPos = false := fun rel' h => by
  rcases d.bound_relation h with rfl | h
  · rfl
  · obtain ⟨r, rfl, -⟩ := hs.rel rel' h
    rfl

/-- The coordinate bounds at a point of the nest: those along the way to the last variable. -/
theorem bound_coordBounds {ds : List IndexVar} (hds : ds ⊆ s.leaves) (hnd : ds.Nodup) :
    ∃ c, g.deriveCoordBounds (denseBounds rel.parentVar rel.bound) var ds rel.parentVar = some c ∧
      (ds = [] → c = (literal 0, property rel.bound)) ∧ ∀ ps u, ds = ps ++ [u] →
        c = relativeBounds var (ps ++ covered ps (.unary (.bound rel) s)) (above u s) (literal 0, property rel.bound) := by
  have hroot : denseBounds rel.parentVar rel.bound rel.parentVar = some (literal 0, property rel.bound) := if_pos rfl
  rcases List.eq_nil_or_concat ds with rfl | ⟨ps, u, rfl⟩
  · exact ⟨_, hroot, fun _ => rfl, fun ps u h => by simp at h⟩
  · rw [List.concat_eq_append] at hds hnd ⊢
    obtain ⟨hps, hu⟩ := List.append_subset.mp hds
    have hu := hu (List.mem_singleton_self u)
    have h : g.deriveCoordBounds (denseBounds rel.parentVar rel.bound) var (ps ++ [u]) rel.parentVar = _ :=
      d.deriveCoordBounds_eq hu hps hnd
    rw [above_unary d.nodup (s.leaves_subset_labels hu)] at h
    refine ⟨_, h.trans (congrArg (Option.map _) hroot), fun h => by simp at h, fun ps' u' h' => ?_⟩
    obtain ⟨rfl, hu'⟩ := List.append_inj' h' rfl
    obtain rfl := List.singleton_inj.mp hu'
    exact relativeBounds_append rfl (above u s)

/-- The bounds of the variables below the bound. -/
theorem bound_iterBounds {ds : List IndexVar} {w : IndexVar} (hw : w ∈ s.labels)
    {c : Bounds} (hc : g.deriveCoordBounds (denseBounds rel.parentVar rel.bound) var ds.dropLast rel.parentVar = some c) :
    g.iterBounds (denseBounds rel.parentVar rel.bound) ds w =
      some (derivedBounds c w (above w s) (c.1, literal rel.bound)) := by
  have hroot : denseBounds rel.parentVar rel.bound rel.parentVar = some (literal 0, property rel.bound) := if_pos rfl
  have hclimbs := d.climbs (List.mem_cons_of_mem rel.parentVar hw)
  have h := hclimbs.deriveIterBounds d.parentRel?_root hroot hc (d.length_above w) (d.length_above w)
  rw [ProvenanceGraph.iterBounds, h, above_unary d.nodup hw]
  exact congrArg some (derivedBounds_append (climbs_above d.represents.2.2.2 (List.nodup_cons.mp d.nodup).2 hw))

/-- The code that recovers the parent of a split below the bound. -/
theorem recoverySteps_bound_split {ds : List IndexVar} (hds : ds ⊆ s.leaves) (hnd : ds.Nodup) {v : IndexVar}
    {r : SplitRelNode} (hr : IndexVarRel.split r ∈ s.relations) :
    g.recoverySteps (denseBounds rel.parentVar rel.bound) ds true v r.parentVar =
      some [.varDecl r.parentVar (r.recoverVariable var)] := by
  have hchild : g.childRel? r.parentVar = some (.split r) := d.childRel?_eq (List.mem_cons_of_mem _ hr)
  have hlabel : r.parentVar ∈ s.labels := s.inner_subset_labels (Derivation.parentVar_mem hr)
  have hroot : denseBounds rel.parentVar rel.bound r.parentVar = none :=
    if_neg fun he : r.parentVar = rel.parentVar => d.bound_parentVar_not_mem (he ▸ hlabel)
  have hdrop := List.dropLast_sublist ds
  obtain ⟨c, hc, -⟩ := d.bound_coordBounds (List.Subset.trans hdrop.subset hds) (hdrop.nodup hnd)
  obtain ⟨c', hc', -⟩ := d.bound_coordBounds hds hnd
  have hiter := d.bound_iterBounds hlabel hc
  have hposition : g.positionGuard (denseBounds rel.parentVar rel.bound) ds r.parentVar = some [] := by
    have hchildren : g.getChildren r.parentVar = [r.outerVar, r.innerVar] := getChildren_eq hchild
    rw [ProvenanceGraph.positionGuard, hchildren]
  have hunderived : g.underivedGuard (denseBounds rel.parentVar rel.bound) ds v r.parentVar = some [] := by
    rw [ProvenanceGraph.underivedGuard, hroot]
  refine recoverySteps_unguarded (fun _ => ⟨hposition, hunderived⟩) ?_ (by rw [ProvenanceGraph.chunkGuard, hchild])
  rw [ProvenanceGraph.recoverVariable, hchild, d.getUnderivedAncestor_eq (List.mem_cons_of_mem _ hlabel)]
  simp only [ProvenanceGraph.iterBounds] at hiter
  rw [hiter]
  exact congrArg (fun x : Option Bounds => x >>= fun b => some (r.recoverVariable var)) hc'

include hs in
/-- The code that recovers the bounded variable, where its guard is left out. -/
theorem recoverySteps_bound {ds : List IndexVar} (hds : ds ⊆ s.leaves) (hnd : ds.Nodup) {v : IndexVar}
    (hskip : SkipsGuard g rel.parentVar rel.bound ds v) :
    g.recoverySteps (denseBounds rel.parentVar rel.bound) ds true v rel.parentVar =
      some [.varDecl rel.parentVar (var rel.boundVar)] := by
  have hchild : g.childRel? rel.parentVar = some (.bound rel) := d.represents.1
  have hroot : denseBounds rel.parentVar rel.bound rel.parentVar = some (literal 0, property rel.bound) := if_pos rfl
  have hposition : g.positionGuard (denseBounds rel.parentVar rel.bound) ds rel.parentVar = some [] := by
    have hchildren : g.getChildren rel.parentVar = [rel.boundVar] := getChildren_eq hchild
    rw [ProvenanceGraph.positionGuard, hchildren]
    dsimp only
    rw [isPosVariable_eq_false (d.bound_not_pos hs) _ rel.boundVar, Bool.and_false, if_neg Bool.false_ne_true]
  refine recoverySteps_unguarded (fun hexact => ⟨hposition, ?_⟩) ?_ (by rw [ProvenanceGraph.chunkGuard, hchild])
  · have hdiv := hskip.resolve_left (by rw [hexact]; exact Bool.false_ne_true)
    rw [ProvenanceGraph.underivedGuard, hroot]
    dsimp only
    rw [hasPosDescendant_eq_false (d.bound_not_pos hs), if_neg Bool.false_ne_true, hdiv]
    rfl
  · have hlabel : rel.parentVar ∈ (Derivation.unary (.bound rel) s).labels := List.mem_cons_self
    obtain ⟨c, hc⟩ := d.deriveIterBounds_exist hroot var hds hnd hlabel
    obtain ⟨c', hc', -⟩ := d.bound_coordBounds hds hnd
    rw [ProvenanceGraph.recoverVariable, hchild, d.getUnderivedAncestor_eq hlabel, hc]
    exact congrArg (fun x : Option Bounds => x >>= fun b => some (var rel.boundVar)) hc'

include hs in
/-- Only the last loop recovers the bounded variable. -/
theorem bound_newly {ds vs : List IndexVar} {v : IndexVar} (horder : (ds ++ v :: vs).Perm s.leaves)
    (h : IndexVarRel.bound rel ∈ newly ds v (.unary (.bound rel) s)) : vs = [] := by
  have hall : s.leaves ⊆ v :: ds := by
    by_contra hsub
    have hmem : IndexVarRel.bound rel ∈ newly ds v s := by
      rw [newly] at h
      rwa [if_neg hsub, List.append_nil] at h
    obtain ⟨r, hr, -⟩ := hs.rel _ (newly_subset_relations ds v s hmem)
    cases hr
  have hnd : (ds ++ v :: vs).Nodup := horder.nodup_iff.mpr (s.leaves_sublist_labels.nodup (List.nodup_cons.mp d.nodup).2)
  refine List.eq_nil_iff_forall_not_mem.mpr fun w hw => ?_
  obtain ⟨-, hndv, hdisj⟩ := List.nodup_append.mp hnd
  rcases List.mem_cons.mp (hall (horder.subset (List.mem_append_right _ (List.mem_cons_of_mem _ hw)))) with rfl | hd
  · exact (List.nodup_cons.mp hndv).1 hw
  · exact hdisj w hd w (List.mem_cons_of_mem _ hw) rfl

include hs in
/-- The bounds of a loop, from the coordinate bounds along the way to the loop variable before it. -/
theorem bound_loop {order ps us : List IndexVar} {u : IndexVar} (horder : order.Perm s.leaves) (h : order = ps ++ u :: us) :
    ∃ c b, (ps = [] → c = (literal 0, property rel.bound)) ∧
      (∀ qs w, ps = qs ++ [w] →
        c = relativeBounds var (qs ++ covered qs (.unary (.bound rel) s)) (above w s) (literal 0, property rel.bound)) ∧
      g.iterBounds (denseBounds rel.parentVar rel.bound) (ps ++ [u]) u = some b ∧
      ∀ env, Bounds.values b env = loopValues g (denseBounds rel.parentVar rel.bound) order u env ∧
        loopValues g (denseBounds rel.parentVar rel.bound) order u env =
          List.range' (s.span u (c.1.eval env, rel.bound)).1
            ((s.span u (c.1.eval env, rel.bound)).2 - (s.span u (c.1.eval env, rel.bound)).1) := by
  subst h
  have hndl := (List.nodup_cons.mp d.nodup).2
  obtain ⟨hndp, -, hdisj⟩ := List.nodup_append.mp (horder.nodup_iff.mpr (s.leaves_sublist_labels.nodup hndl))
  obtain ⟨hps, hu⟩ := List.append_subset.mp horder.subset
  have hu := s.leaves_subset_labels (hu List.mem_cons_self)
  obtain ⟨c, hc, hnil, hcons⟩ := d.bound_coordBounds hps hndp
  have hb : g.iterBounds (denseBounds rel.parentVar rel.bound) (ps ++ [u]) u =
      some (derivedBounds c u (above u s) (c.1, literal rel.bound)) :=
    d.bound_iterBounds hu (by rwa [List.dropLast_concat])
  have hvalues : ∀ env, loopValues g (denseBounds rel.parentVar rel.bound) (ps ++ u :: us) u env =
      Bounds.values (derivedBounds c u (above u s) (c.1, literal rel.bound)) env := fun env => by
    rw [loopValues, takeWhile_order fun hp => hdisj u hp u List.mem_cons_self rfl, hb]
  refine ⟨c, _, hnil, hcons, hb, fun env => ⟨(hvalues env).symm, ?_⟩⟩
  obtain ⟨hlo, hhi⟩ := Prod.ext_iff.mp (Derivation.eval_derivedBounds c env (c.1, literal rel.bound)
    d.represents.2.2.2 hndl hs.cuts hu)
  rw [hvalues, Bounds.values]
  exact congrArg₂ (fun l h => List.range' l (h - l)) hlo hhi

include hs in
/-- What `lowerForall` makes of a nest that leaves the guard out. -/
theorem lowers_bound {ds : List IndexVar} {v : IndexVar} (horder : (ds ++ [v]).Perm s.leaves)
    (hskip : SkipsGuard g rel.parentVar rel.bound ds v) :
    Lowers boundRecovery g (denseBounds rel.parentVar rel.bound) true (.unary (.bound rel) s) (ds ++ [v])
      (loopValues g (denseBounds rel.parentVar rel.bound) (ds ++ [v])) where
  derived := d
  perm := horder
  bounds ps u us h := by
    obtain ⟨c, b, hnil, hcons, hb, hvalues⟩ := d.bound_loop hs horder h
    refine ⟨b, hb, fun env => (hvalues env).1, fun env env' hsame => ?_⟩
    have hlower : c.1.eval env = c.1.eval env' := by
      rcases List.eq_nil_or_concat ps with rfl | ⟨qs, w, rfl⟩
      · rw [hnil rfl]
        rfl
      · rw [hcons qs w List.concat_eq_append]
        refine (eval_relativeBounds_congr (fun x hx => hsame x ?_) ⟨rfl, rfl⟩ (above w s)).1
        rw [List.concat_eq_append]
        exact (List.mem_append.mp hx).imp (List.mem_append_left _) fun hx => covered_mono (List.subset_append_left _ _) _ hx
    rw [(hvalues env).2, (hvalues env').2, hlower]
  steps ps u us h rel' hrel := by
    have hnd : (ps ++ u :: us).Nodup := h ▸ horder.nodup_iff.mpr (s.leaves_sublist_labels.nodup (List.nodup_cons.mp d.nodup).2)
    have hps : ps ⊆ s.leaves := fun w hw => horder.subset (h ▸ List.mem_append_left _ hw)
    have hndp := (List.nodup_append.mp hnd).1
    rcases List.mem_cons.mp (newly_subset_relations ps u _ hrel) with rfl | hr
    · obtain rfl := d.bound_newly hs (h ▸ horder) hrel
      obtain ⟨rfl, hu⟩ := List.append_inj' h rfl
      obtain rfl := List.singleton_inj.mp hu
      exact ⟨_, d.recoverySteps_bound hs hps hndp hskip, fun env rest => rfl⟩
    · obtain ⟨r, rfl, -⟩ := hs.rel rel' hr
      exact ⟨_, d.recoverySteps_bound_split hps hndp hr, fun env rest => rfl⟩

/-! ### The iterations -/

include hs in
/-- A loop runs at most to the extent of its variable. -/
theorem loopValues_lt {order : List IndexVar} (horder : order.Perm s.leaves) {w : IndexVar} (hw : w ∈ order) {env : Env}
    {x : ℕ} (hx : x ∈ loopValues g (denseBounds rel.parentVar rel.bound) order w env) : x < s.extent w rel.bound := by
  obtain ⟨ps, us, h⟩ := List.append_of_mem hw
  obtain ⟨c, b, -, -, -, hvalues⟩ := d.bound_loop hs horder h
  rw [(hvalues env).2, List.mem_range'_1, Derivation.span_snd hs] at hx
  dsimp only at hx
  omega

include hs in
/-- Where the factors divide, every loop of an iteration starts at 0. -/
theorem loopValues_within {order : List IndexVar} (horder : order.Perm s.leaves) {w : IndexVar} (hw : w ∈ order) {e : Env}
    (hwithin : s.Within rel.bound) (hit : Iterates e s rel.bound) :
    loopValues g (denseBounds rel.parentVar rel.bound) order w e = List.range (s.extent w rel.bound) := by
  have hndl := (List.nodup_cons.mp d.nodup).2
  obtain ⟨ps, us, h⟩ := List.append_of_mem hw
  obtain ⟨c, b, hnil, hcons, -, hvalues⟩ := d.bound_loop hs horder h
  have hfst : (s.span w (c.1.eval e, rel.bound)).1 = 0 := by
    rcases List.eq_nil_or_concat ps with rfl | ⟨qs, u, rfl⟩
    · rw [hnil rfl]
      exact (Prod.ext_iff.mp (Derivation.span_zero w s rel.bound)).1
    · rw [List.concat_eq_append] at h hcons
      rw [hcons qs u rfl]
      subst h
      obtain ⟨hndp, -, hdisj⟩ := List.nodup_append.mp (horder.nodup_iff.mpr (s.leaves_sublist_labels.nodup hndl))
      obtain ⟨hps, hws⟩ := List.append_subset.mp horder.subset
      obtain ⟨hqs, hu⟩ := List.append_subset.mp hps
      have hdef : DefinesOf (qs ++ covered qs (.unary (.bound rel) s)) qs s := by
        refine ⟨fun x hx => ?_, fun x hx hq => Derivation.not_mem_leaves_of_inner hndl hx (hqs hq)⟩
        have hp : x ∉ (if s.leaves ⊆ qs then [rel.parentVar] else []) := fun hp => by
          split_ifs at hp
          · exact d.bound_parentVar_not_mem (List.mem_singleton.mp hp ▸ hx)
          · cases hp
        rw [List.mem_append, covered, List.mem_append]
        exact or_congr_right (or_iff_left hp)
      have hwq : w ∉ qs ++ [u] := fun hq => hdisj w hq w List.mem_cons_self rfl
      refine span_relativeBounds_fst (fun hq => (List.nodup_append.mp hndp).2.2 u hq u (List.mem_singleton_self u) rfl)
        (fun hq => hwq (List.mem_append_left _ hq)) (fun he => hwq (List.mem_append_right _ (List.mem_singleton.mpr he)))
        d.linked.2 hndl hs hdef (hu (List.mem_singleton_self u)) (hws List.mem_cons_self) hwithin hit rfl
  rw [(hvalues e).2, hfst, Derivation.span_snd hs, Nat.sub_zero, List.range_eq_range']

include hs in
/-- Where the loop over the spine is the first, every loop starts at 0. -/
theorem loopValues_spine {rest : List IndexVar} (horder : (s.spine :: rest).Perm s.leaves) {w : IndexVar}
    (hw : w ∈ s.spine :: rest) (e : Env) :
    loopValues g (denseBounds rel.parentVar rel.bound) (s.spine :: rest) w e = List.range (s.extent w rel.bound) := by
  obtain ⟨-, hndl⟩ := List.nodup_cons.mp d.nodup
  obtain ⟨ps, us, h⟩ := List.append_of_mem hw
  obtain ⟨c, b, hnil, -, -, hvalues⟩ := d.bound_loop hs horder h
  have hfst : (s.span w (c.1.eval e, rel.bound)).1 = 0 := by
    by_cases hspine : w = s.spine
    · have hps : ps = [] := by
        cases ps with
        | nil => rfl
        | cons p ps =>
          have hrest : rest = ps ++ w :: us := (List.cons.inj h).2
          have hmem : s.spine ∈ rest := hrest ▸ hspine ▸ List.mem_append_right ps List.mem_cons_self
          exact absurd hmem (List.nodup_cons.mp (horder.nodup_iff.mpr (s.leaves_sublist_labels.nodup hndl))).1
      rw [hnil hps]
      exact (Prod.ext_iff.mp (Derivation.span_zero w s rel.bound)).1
    · exact Derivation.span_fst_of_ne_spine d.linked.2 hndl hs (horder.subset hw) hspine
  rw [(hvalues e).2, hfst, Derivation.span_snd hs, Nat.sub_zero, List.range_eq_range']

/-- The variables of a recovered iteration. -/
theorem bound_recovered {order : List IndexVar} (horder : order.Perm s.leaves) {e : Env}
    (hrec : Recovered boundRecovery order e (.unary (.bound rel) s)) : e rel.parentVar = e s.label ∧
      ∀ r ∈ s.relations, e r.parentVar = r.parentValue (r.stripSize 0) e := by
  have hsub : (Derivation.unary (.bound rel) s).leaves ⊆ order := horder.symm.subset
  refine ⟨?_, fun r hr => (hrec.all hsub (List.mem_cons_of_mem _ hr)).1⟩
  have hval : e rel.parentVar = e rel.boundVar := (hrec.2 hsub).1
  rw [hval, d.boundVar_eq]

/-! ### The test that leaves the guard out -/

/-- The test reads the upper bound of the loop variable as a literal. -/
theorem hasDirectDivBound_eq {ds : List IndexVar} (hds : ds ⊆ s.leaves) (hnd : ds.Nodup) {v : IndexVar} (hv : v ∈ s.labels) :
    ∃ c : Bounds, g.hasDirectDivBound (denseBounds rel.parentVar rel.bound) ds v rel.parentVar =
      (derivedBounds c v (above v s) (c.1, literal rel.bound)).2.literal?.bind fun divisor =>
        if divisor = 0 then none else some (rel.bound % divisor == 0) := by
  have hdrop := List.dropLast_sublist ds
  obtain ⟨c, hc, -⟩ := d.bound_coordBounds (List.Subset.trans hdrop.subset hds) (hdrop.nodup hnd)
  refine ⟨c, ?_⟩
  have hchild : g.childRel? rel.parentVar = some (.bound rel) := d.represents.1
  have hparent : g.parentRel? rel.boundVar = some (.bound rel) :=
    d.parentRel?_eq List.mem_cons_self (List.mem_singleton_self _)
  have hexact : g.hasExactBound rel.boundVar = true := by rw [ProvenanceGraph.hasExactBound, hparent]; rfl
  have hchildren : g.getChildren rel.parentVar = [rel.boundVar] := getChildren_eq hchild
  have hne : rel.parentVar ≠ rel.boundVar := fun he =>
    d.bound_parentVar_not_mem (he ▸ d.boundVar_eq ▸ s.label_mem_labels)
  have hpath : (g.derivationPath g.relations.length rel.parentVar rel.boundVar).length = 2 := by
    have hself : ∀ fuel, g.derivationPath fuel rel.boundVar rel.boundVar = [rel.boundVar] := fun fuel => by
      cases fuel <;> exact if_pos rfl
    rw [d.perm.length_eq, Derivation.relations, List.length_cons, ProvenanceGraph.derivationPath, if_neg hne, hchildren,
      List.findSome?_cons, hself]
    rfl
  have hlabel : above s.label s = [] := above_label s
  have hbound := d.bound_iterBounds s.label_mem_labels hc
  rw [hlabel, ← d.boundVar_eq] at hbound
  have hloop := d.bound_iterBounds hv hc
  have hlit : (literal rel.bound).literal? = some rel.bound := rfl
  rw [ProvenanceGraph.hasDirectDivBound, hchildren]
  simp only [List.foldlM_cons, List.foldlM_nil, hexact, hpath, Bool.not_false, Bool.and_true, decide_true, if_true, hbound,
    hloop, derivedBounds, Option.bind_eq_bind, Option.bind_some, hlit, Option.pure_def, Option.bind_fun_some]

include hs in
/-- The guard is left out in the loop over an inner child whose factor divides the bound, and in no other loop below a
    split. -/
theorem skipsGuard_iff (hsplit : s.label ∉ s.leaves) {ds : List IndexVar} (hds : ds ⊆ s.leaves) (hnd : ds.Nodup)
    {v : IndexVar} (hv : v ∈ s.leaves) : SkipsGuard g rel.parentVar rel.bound ds v ↔
      ∃ r, IndexVarRel.split r ∈ s.relations ∧ r.innerVar = v ∧ r.splitFactor ∣ rel.bound := by
  have hndl := (List.nodup_cons.mp d.nodup).2
  have hlab := s.leaves_subset_labels hv
  have hclimbs : Climbs g s.label v (above v s) := climbs_above d.represents.2.2.2 hndl hlab
  cases habove : above v s with
  | nil =>
    have he : v = s.label := by rwa [habove] at hclimbs
    exact absurd (he ▸ hv) hsplit
  | cons rel' rels =>
    rw [habove] at hclimbs
    have hmem : rel' ∈ s.relations := above_subset v s (habove ▸ List.mem_cons_self)
    obtain ⟨r, rfl, hf⟩ := hs.rel rel' hmem
    have hparent : g.parentRel? v = some (.split r) := hclimbs.1
    have hexact : g.hasExactBound v = false := by rw [ProvenanceGraph.hasExactBound, hparent]; rfl
    have hchild : v ∈ [r.outerVar, r.innerVar] := by
      have h := List.find?_some hparent
      rwa [List.contains_iff_mem] at h
    have hne : r.outerVar ≠ r.innerVar := fun he => by
      have h := Derivation.nodup_children d.linked.2 hndl hs.cuts hmem
      exact (List.nodup_cons.mp h).1 (he ▸ List.mem_singleton_self _)
    obtain ⟨c, hdiv⟩ := d.hasDirectDivBound_eq hds hnd hlab
    rw [habove] at hdiv
    have hunique : ∀ r', IndexVarRel.split r' ∈ s.relations → r'.innerVar = v → r' = r := fun r' hr' hv' => by
      have h := d.parentRel?_eq (List.mem_cons_of_mem _ hr') (c := v)
        (List.mem_cons_of_mem _ (List.mem_singleton.mpr hv'.symm))
      rw [hparent] at h
      exact (IndexVarRel.split.inj (Option.some.inj h)).symm
    rw [SkipsGuard, hexact, hdiv, or_iff_right Bool.false_ne_true]
    show ((r.deriveIterBounds v _).2.literal?.bind _ = some true) ↔ _
    rw [SplitRelNode.deriveIterBounds]
    by_cases houter : v = r.outerVar
    · rw [if_pos houter]
      refine iff_of_false (fun h => by cases h) ?_
      rintro ⟨r', hr', hv', -⟩
      obtain rfl := hunique r' hr' hv'
      exact hne (houter.symm.trans hv'.symm)
    · have hinner : r.innerVar = v := ((List.mem_cons.mp hchild).resolve_left houter |> List.mem_singleton.mp).symm
      rw [if_neg houter]
      simp only [literal?, Option.bind_some, if_neg (Nat.pos_iff_ne_zero.mp hf), Option.some.injEq, beq_iff_eq]
      rw [← Nat.dvd_iff_mod_eq_zero]
      refine ⟨fun h => ⟨r, hmem, hinner, h⟩, ?_⟩
      rintro ⟨r', hr', hv', h⟩
      exact hunique r' hr' hv' ▸ h

/-! ### The visited values -/

include hs in
/-- The iterations of a nest that leaves the guard out. -/
theorem bound_run {ds : List IndexVar} {v : IndexVar} (horder : (ds ++ [v]).Perm s.leaves)
    (hskip : SkipsGuard g rel.parentVar rel.bound ds v) :
    ∃ nest, g.lowerForall (denseBounds rel.parentVar rel.bound) true [] (ds ++ [v]) = some nest ∧
      ∀ env, (nest.run env).Nodup ∧ ∀ e, e ∈ nest.run env ↔
        Recovered boundRecovery (ds ++ [v]) e (.unary (.bound rel) s) ∧
          (∀ w ∈ ds ++ [v], e w ∈ loopValues g (denseBounds rel.parentVar rel.bound) (ds ++ [v]) w e) ∧
            ∀ w, w ∉ ds ++ [v] → w ∉ (Derivation.unary (.bound rel) s).inner → e w = env w := by
  obtain ⟨nest, hnest, hrun⟩ := (d.lowers_bound hs horder hskip).run (ds ++ [v]) [] [] (by rw [List.append_nil]; rfl)
  refine ⟨nest, hnest, fun env => ?_⟩
  obtain ⟨hpair, hmem⟩ := hrun env (recovered_nil env _)
  rw [List.nil_append] at hmem
  have hsub : (Derivation.unary (.bound rel) s).leaves ⊆ ds ++ [v] := horder.symm.subset
  have hinner : ∀ w, (w ∈ covered (ds ++ [v]) (.unary (.bound rel) s) → w ∈ covered [] (.unary (.bound rel) s)) ↔
      w ∉ (Derivation.unary (.bound rel) s).inner := fun w => by
    rw [covered_nil, imp_iff_not List.not_mem_nil, not_iff_not]
    exact ⟨fun h => covered_subset_inner _ _ h, fun h => inner_subset_covered hsub h⟩
  refine ⟨hpair.nodup, fun e => ?_⟩
  rw [hmem e]
  simp only [hinner]

include hs in
/-- Every value that the leaves compose is visited, where all loops start at 0. -/
theorem exists_iteration {order : List IndexVar} (horder : order.Perm s.leaves) {nest : LoopNest} {env : Env}
    (hmem : ∀ e, e ∈ nest.run env ↔ Recovered boundRecovery order e (.unary (.bound rel) s) ∧
      (∀ w ∈ order, e w ∈ loopValues g (denseBounds rel.parentVar rel.bound) order w e) ∧
        ∀ w, w ∉ order → w ∉ (Derivation.unary (.bound rel) s).inner → e w = env w)
    (hvalues : ∀ e, Iterates e s rel.bound → ∀ w ∈ order,
      loopValues g (denseBounds rel.parentVar rel.bound) order w e = List.range (s.extent w rel.bound))
    {e₀ : Env} (he₀ : ∀ w ∈ s.leaves, e₀ w < s.extent w rel.bound) : ∃ e ∈ nest.run env, e rel.parentVar = s.compose e₀ := by
  obtain ⟨e, hkeep, hrels⟩ := exists_values boundRecovery (fun w => if w ∈ s.leaves then e₀ w else env w) d.linked d.nodup
  have hrec : Recovered boundRecovery order e (.unary (.bound rel) s) :=
    recovered_of_values fun r hr => ⟨hrels r hr, rfl⟩
  have hleaf : ∀ w ∈ s.leaves, e w = e₀ w := fun w hw =>
    (hkeep w fun hi => Derivation.not_mem_leaves_of_inner d.nodup hi hw).trans (if_pos hw)
  obtain ⟨hroot, hsplits⟩ := d.bound_recovered horder hrec
  have hit : Iterates e s rel.bound := iterates_of_splits d.linked.2 (List.nodup_cons.mp d.nodup).2 hs
    (fun w hw => hleaf w hw ▸ he₀ w hw) hsplits
  refine ⟨e, (hmem e).mpr ⟨hrec, fun w hw => ?_, fun w hw hi => ?_⟩, ?_⟩
  · rw [hvalues e hit w hw, List.mem_range, hleaf w (horder.subset hw)]
    exact he₀ w (horder.subset hw)
  · exact (hkeep w hi).trans (if_neg fun hl => hw (horder.symm.subset hl))
  · rw [hroot, hrec.1.compose (fun _ _ => rfl) d.linked.2 hs horder.symm.subset]
    exact Derivation.compose_congr hleaf

include hs in
/-- Without the guard, a nest is exact where the factors divide. -/
theorem visitsOnce_within {ds : List IndexVar} {v : IndexVar} (horder : (ds ++ [v]).Perm s.leaves)
    (hskip : SkipsGuard g rel.parentVar rel.bound ds v) (hwithin : rel.bound = 0 ∨ s.Within rel.bound) :
    ∃ nest, g.lowerForall (denseBounds rel.parentVar rel.bound) true [] (ds ++ [v]) = some nest ∧
      ∀ env, VisitsOnce (nest.trace rel.parentVar env) 0 rel.bound := by
  have hndl := (List.nodup_cons.mp d.nodup).2
  obtain ⟨nest, hnest, hrun⟩ := d.bound_run hs horder hskip
  refine ⟨nest, hnest, fun env => ?_⟩
  obtain ⟨hnodup, hmem⟩ := hrun env
  have hlt : ∀ e ∈ nest.run env, ∀ w ∈ s.leaves, e w < s.extent w rel.bound := fun e he w hw =>
    d.loopValues_lt hs horder (horder.symm.subset hw) (((hmem e).mp he).2.1 w (horder.symm.subset hw))
  have hiter : ∀ e ∈ nest.run env, e rel.parentVar = e s.label ∧ Iterates e s rel.bound := fun e he => by
    obtain ⟨hroot, hsplits⟩ := d.bound_recovered horder ((hmem e).mp he).1
    exact ⟨hroot, iterates_of_splits d.linked.2 hndl hs (hlt e he) hsplits⟩
  rcases hwithin with hzero | hwithin
  · have hnil : nest.run env = [] := List.eq_nil_iff_forall_not_mem.mpr fun e he => by
      have h := hlt e he s.spine s.spine_mem
      rw [hzero, Derivation.extent_spine_zero d.linked.2 hndl hs] at h
      exact Nat.not_lt_zero _ h
    rw [LoopNest.trace, hnil, hzero]
    exact visitsOnce_range' 0 0
  · have hsub : (Derivation.unary (.bound rel) s).leaves ⊆ ds ++ [v] := horder.symm.subset
    refine visitsOnce_iff_nodup.mpr ⟨List.Nodup.map_on (fun e he e' he' hsame => ?_) hnodup, fun x => ⟨fun hx => ?_, fun hx => ?_⟩⟩
    · obtain ⟨hroot, hit⟩ := hiter e he
      obtain ⟨hroot', hit'⟩ := hiter e' he'
      have hleaf := Derivation.leaves_unique d.linked.2 hndl hs hwithin hit hit' (by rw [← hroot, ← hroot', hsame])
      refine funext fun w => ?_
      by_cases hw : w ∈ ds ++ [v]
      · exact hleaf w (horder.subset hw)
      · by_cases hi : w ∈ (Derivation.unary (.bound rel) s).inner
        · exact ((hmem e).mp he).1.unique d.linked (fun u hu _ => hleaf u hu) ((hmem e').mp he').1 w
            (inner_subset_covered hsub hi)
        · rw [((hmem e).mp he).2.2 w hw hi, ((hmem e').mp he').2.2 w hw hi]
    · obtain ⟨e, he, rfl⟩ := List.mem_map.mp hx
      obtain ⟨hroot, hit⟩ := hiter e he
      rw [hroot]
      exact ⟨Nat.zero_le _, Derivation.label_lt d.linked.2 hndl hs.cuts hwithin hit⟩
    · obtain ⟨e₀, he₀, hcompose⟩ := Derivation.exists_compose d.linked.2 hndl hs hx.2
      obtain ⟨e, he, hval⟩ := d.exists_iteration hs horder hmem
        (fun e hit w hw => d.loopValues_within hs horder hw hwithin hit) he₀
      exact List.mem_map.mpr ⟨e, he, hval.trans hcompose⟩

include hs in
/-- Where a factor does not divide, a nest over the spine first runs past the bound. -/
theorem exists_overrun {rest : List IndexVar} {v : IndexVar} (horder : (s.spine :: rest ++ [v]).Perm s.leaves)
    (hskip : SkipsGuard g rel.parentVar rel.bound (s.spine :: rest) v) (hpos : 0 < rel.bound) (hnot : ¬ s.Within rel.bound)
    (env : Env) : ∃ nest, g.lowerForall (denseBounds rel.parentVar rel.bound) true [] (s.spine :: rest ++ [v]) = some nest ∧
      ∃ x ∈ nest.trace rel.parentVar env, rel.bound ≤ x := by
  obtain ⟨nest, hnest, hrun⟩ := d.bound_run hs horder hskip
  obtain ⟨e₀, he₀, hge⟩ := Derivation.exists_compose_ge d.linked.2 (List.nodup_cons.mp d.nodup).2 hs hpos hnot
  obtain ⟨e, he, hval⟩ := d.exists_iteration hs horder (hrun env).2
    (fun e _ w hw => d.loopValues_spine hs horder hw e) he₀
  exact ⟨nest, hnest, _, List.mem_map.mpr ⟨e, he, rfl⟩, hval ▸ hge⟩

end DerivedFrom

end Scheduling
end Taco
