import Taco.Lower.Foralls
import Taco.Lower.LatticeSound

/-! Each point of the lattice of a forall has a loop, and the cases of a loop are those of the points below its own. -/

namespace Taco
namespace Lower

open MergeLatticeBuilder

variable {V : Type}

theorem forall₂_of_mapM {α β : Type} {f : α → Option β} {R : α → β → Prop} : ∀ {l : List α},
    (∀ a ∈ l, ∃ b, f a = some b ∧ R a b) → ∃ l', l.mapM f = some l' ∧ List.Forall₂ R l l'
  | [], _ => ⟨[], rfl, .nil⟩
  | a :: l, h => by
    obtain ⟨b, hb, hR⟩ := h a List.mem_cons_self
    obtain ⟨l', hl', hforall⟩ := forall₂_of_mapM fun x hx => h x (List.mem_cons_of_mem a hx)
    exact ⟨b :: l', by simp [hb, hl'], .cons hR hforall⟩

theorem includes_iff {iterators others : List Iterator} (h : others.Nodup) : includes iterators others = true ↔ others ⊆ iterators := by
  rw [includes, List.all_eq_true]
  refine forall_congr' fun it => forall_congr' fun hit => ?_
  rw [List.count_eq_one_of_mem h hit, decide_eq_true_eq, Nat.succ_le_iff, List.count_pos_iff]

namespace Forall

variable (F : Forall V) [Ring V]

theorem isLattice : IsLattice F.nodes F.expr F.lattice := isLattice_visit F.nodup

variable {F} {p q r : MergePoint}

/-- Points of the lattice are below one another if they fit where the accesses of the other are. -/
theorem fits_keeps_iff (hp : p ∈ F.lattice) (hr : r ∈ F.lattice) : r.fits p.keeps = true ↔ r.iterators ⊆ p.iterators := by
  have hF := F.isLattice
  rw [MergePoint.fits_iff]
  constructor
  · intro h it hit
    have hpresent := h it hit
    cases it with
    | dimension => exact (hF.dimension_iff p hp).mpr ((hF.dimension_iff r hr).mp hit)
    | level node => exact MergePoint.keeps_iff.mp hpresent
    | indexSet node =>
      exact (hF.indexSet_iff p hp node).mpr ⟨MergePoint.keeps_iff.mp hpresent, ((hF.indexSet_iff r hr node).mp hit).2⟩
  · intro h it hit
    cases it with
    | dimension => rfl
    | level node => exact MergePoint.keeps_iff.mpr (h hit)
    | indexSet node => exact MergePoint.keeps_iff.mpr ((hF.indexSet_iff p hp node).mp (h hit)).1

theorem subLattice_eq (hp : p ∈ F.lattice) : F.lattice.subLattice p = F.lattice.filter fun r => r.fits p.keeps := by
  refine List.filter_congr fun r hr => ?_
  rw [Bool.eq_iff_iff, includes_iff (F.isLattice.nodup r hr), fits_keeps_iff hp hr]

theorem mem_subLattice (hp : p ∈ F.lattice) : r ∈ F.lattice.subLattice p ↔ r ∈ F.lattice ∧ r.iterators ⊆ p.iterators := by
  rw [subLattice_eq hp, List.mem_filter]
  exact and_congr_right fun hr => fits_keeps_iff hp hr

/-- The first point of the sublattice has the iterators of the point. -/
theorem subLattice_head (hp : p ∈ F.lattice) : ∃ q rest, F.lattice.subLattice p = q :: rest ∧ q ∈ F.lattice ∧
    ∀ it, it ∈ q.iterators ↔ it ∈ p.iterators := by
  have hmem : p ∈ F.lattice.subLattice p := (mem_subLattice hp).mpr ⟨hp, fun _ => id⟩
  obtain ⟨q, rest, hq⟩ := List.exists_cons_of_ne_nil (List.ne_nil_of_mem hmem)
  have hqmem := (mem_subLattice hp).mp (hq ▸ List.mem_cons_self : q ∈ F.lattice.subLattice p)
  have hfind : F.lattice.find? (MergePoint.fits p.keeps) = some q := by
    rw [← List.head?_filter, ← subLattice_eq hp, hq, List.head?_cons]
  have hsub := F.isLattice.greatest p.keeps q hfind p hp ((fits_keeps_iff hp hp).mpr fun _ => id)
  exact ⟨q, rest, hq, hqmem.1, fun it => ⟨fun h => hqmem.2 h, fun h => hsub h⟩⟩

/-! ### Exhausted accesses -/

theorem mem_lattice_iterators (hp : p ∈ F.lattice) : p.iterators ⊆ F.lattice.iterators := by
  have hF := F.isLattice
  obtain ⟨first, rest, hcons⟩ := List.exists_cons_of_ne_nil hF.ne_nil
  have hfits : ∀ r : MergePoint, r.fits (fun _ => true) = true := fun r => MergePoint.fits_iff.mpr fun it _ => by
    cases it <;> rfl
  have hfind : F.lattice.find? (MergePoint.fits fun _ => true) = some first := by
    rw [hcons, List.find?_cons_of_pos (hfits first)]
  have hsub := hF.greatest _ first hfind p hp (hfits p)
  rwa [hcons, iterators_cons]

/-- An access is exhausted at a point below another one if it is merged at the other one alone. -/
theorem mem_getExhaustedAccesses {lattice : MergeLattice} (hq : q ∈ F.lattice) (hr : r ∈ F.lattice)
    (hlattice : lattice.iterators = q.iterators) {node : ℕ} : node ∈ getExhaustedAccesses lattice r ↔
      .level node ∈ q.iterators ∧ .level node ∉ r.iterators := by
  have hF := F.isLattice
  rw [getExhaustedAccesses, MergeLattice.exhausted, hlattice, List.mem_filterMap]
  constructor
  · rintro ⟨it, hit, hnode⟩
    obtain ⟨hit, hnot⟩ := List.mem_filter.mp hit
    have hnot : it ∉ r.iterators := by simpa using hnot
    cases it with
    | dimension => cases hnode
    | level node' => obtain rfl := Option.some.inj hnode; exact ⟨hit, hnot⟩
    | indexSet node' =>
      obtain rfl := Option.some.inj hnode
      have hset := (hF.indexSet_iff q hq _).mp hit
      exact ⟨hset.1, fun h => hnot ((hF.indexSet_iff r hr _).mpr ⟨h, hset.2⟩)⟩
  · rintro ⟨hmem, hnot⟩
    exact ⟨.level node, List.mem_filter.mpr ⟨hmem, by simpa using hnot⟩, rfl⟩

/-- What is not exhausted at a point is what it holds. -/
theorem not_exhausted_iff {zeroed : List ℕ}
    (h : ∀ node, node ∈ zeroed ↔ .level node ∈ F.lattice.iterators ∧ .level node ∉ r.iterators) :
    ∀ node ∈ F.expr.accesses, node ∉ zeroed ↔ held F.nodes r.keeps node := by
  intro node hnode
  rw [h, not_and, held, not_not, MergePoint.keeps_iff]
  refine ⟨fun hkeeps hc => hkeeps (F.isLattice.covers node hnode hc), fun hheld hmem => hheld ?_⟩
  obtain ⟨first, rest, hcons, hfirst⟩ := mem_iterators_of_head hmem
  cases F.isLattice.merged first (hcons ▸ List.mem_cons_self) _ hfirst with
  | level hc => exact hc

/-! ### Bodies -/

/-- The body of a point: it reads what is held at the point, and its value is that of the expression there. -/
structure BodyOf (F : Forall V) (r : MergePoint) (body : IndexExpr V) : Prop where
  live : ∀ node ∈ body.accesses, F.expr.Live (held F.nodes r.keeps) node
  eval : ∀ val, body.eval val = F.expr.eval (restrict F.nodes r.keeps val)

theorem bodyOf_zero (hr : r ∈ F.lattice) {zeroed : List ℕ}
    (h : ∀ node, node ∈ zeroed ↔ .level node ∈ F.lattice.iterators ∧ .level node ∉ r.iterators) :
    ∃ body, F.expr.zero zeroed = some body ∧ BodyOf F r body := by
  have hiff := not_exhausted_iff h
  have hdefined : F.expr.Defined (· ∉ zeroed) :=
    (IndexExpr.defined_congr hiff).mpr ((F.isLattice.defined_iff r.keeps).mp ⟨r, hr, (fits_keeps_iff hr hr).mpr fun _ => id⟩)
  obtain ⟨body, hbody⟩ := Option.isSome_iff_exists.mp ((IndexExpr.zero_isSome F.expr).mpr hdefined)
  refine ⟨body, hbody, fun node hnode => ?_, fun val => ?_⟩
  · exact (IndexExpr.live_congr hiff).mp (IndexExpr.live_of_mem_zero hbody hnode)
  · have heval : (F.expr.zero zeroed).elim 0 (IndexExpr.eval val) = F.expr.eval fun a => if a ∈ zeroed then 0 else val a :=
      IndexExpr.eval_zero zeroed F.expr
    rw [hbody] at heval
    refine Eq.trans heval (IndexExpr.eval_congr fun node hnode => ?_)
    have hnot := hiff node hnode
    by_cases hmem : node ∈ zeroed
    · have hheld : ¬held F.nodes r.keeps node := fun hh => absurd hmem (hnot.mpr hh)
      rw [held, Classical.not_imp, Bool.not_eq_true] at hheld
      simp [hmem, restrict, hheld.1, hheld.2]
    · have hheld := hnot.mp hmem
      rw [held] at hheld
      by_cases hc : (F.nodes node).isCompressed = true
      · simp [hmem, restrict, hheld hc]
      · simp [hmem, restrict, hc]

/-- The clauses of the points below a point. -/
def ClauseOf (F : Forall V) (r : MergePoint) (clause : List Iterator × IndexExpr V) : Prop :=
  clause.1 = r.rangers F.nodes ∧ BodyOf F r clause.2

/-- The loop of a point, taken from the first point of its sublattice. -/
structure LoopOf (F : Forall V) (p q : MergePoint) (loop : MergeLoop V) : Prop where
  mem : q ∈ F.lattice
  mem_iff : ∀ it, it ∈ q.iterators ↔ it ∈ p.iterators
  rangers : loop.rangers = q.rangers F.nodes
  iterators : loop.iterators = q.iterators
  mergers : loop.mergers = q.mergers F.nodes
  locators : loop.locators = q.locators
  cases : (q.iterators.length = 1 ∧ ∃ body, loop.cases = .always body ∧ BodyOf F q body) ∨
    q.iterators.length ≠ 1 ∧ ∃ clauses, loop.cases = .case clauses ((F.lattice.subLattice p).exact F.nodes) ∧
      List.Forall₂ (ClauseOf F) (F.lattice.subLattice p) clauses

theorem lowerMergePoint_loopOf (hp : p ∈ F.lattice) : ∃ loop q, LoopOf F p q loop ∧
    ((F.expr.zero (getExhaustedAccesses F.lattice p)).bind fun stmt =>
      lowerMergePoint F.nodes (F.lattice.subLattice p) stmt) = some loop := by
  have hfirst : ∃ first, F.lattice.head? = some first ∧ first ∈ F.lattice ∧ F.lattice.iterators = first.iterators := by
    obtain ⟨first, rest, hcons⟩ := List.exists_cons_of_ne_nil F.isLattice.ne_nil
    exact ⟨first, by rw [hcons, List.head?_cons], hcons ▸ List.mem_cons_self, by rw [hcons, iterators_cons]⟩
  obtain ⟨first, -, hfirst, hiterators⟩ := hfirst
  obtain ⟨q, rest, hsub, hq, hmem⟩ := subLattice_head hp
  have hsubIterators : (F.lattice.subLattice p).iterators = q.iterators := by rw [hsub, iterators_cons]
  have houter : ∀ node, node ∈ getExhaustedAccesses F.lattice p ↔
      .level node ∈ F.lattice.iterators ∧ .level node ∉ p.iterators := fun node => by
    rw [mem_getExhaustedAccesses hfirst hp hiterators, hiterators]
  obtain ⟨stmt, hstmt, hbody⟩ := bodyOf_zero hp houter
  rw [hstmt, Option.bind_some]
  by_cases hlength : q.iterators.length = 1
  · refine ⟨⟨q.rangers F.nodes, q.iterators, q.mergers F.nodes, q.locators, .always stmt⟩, q,
      ⟨hq, hmem, rfl, rfl, rfl, rfl, Or.inl ⟨hlength, stmt, rfl, ?_⟩⟩, ?_⟩
    · have hkeeps : q.keeps = p.keeps := by
        funext node
        rw [Bool.eq_iff_iff, MergePoint.keeps_iff, MergePoint.keeps_iff, hmem]
      exact ⟨by rw [hkeeps]; exact hbody.live, by rw [hkeeps]; exact hbody.eval⟩
    · simp [lowerMergePoint, lowerMergeCases, hsub, hlength]
  · -- Each point of the sublattice has a body, zeroed twice.
    have hclause : ∀ r ∈ F.lattice.subLattice p, ∃ clause, ((stmt.zero (getExhaustedAccesses (F.lattice.subLattice p) r)).bind
        fun zeroedStmt => some (r.rangers F.nodes, zeroedStmt)) = some clause ∧ ClauseOf F r clause := by
      intro r hr
      obtain ⟨hr, hle⟩ := (mem_subLattice hp).mp hr
      have hzeroed : ∀ node, node ∈ getExhaustedAccesses F.lattice p ++ getExhaustedAccesses (F.lattice.subLattice p) r ↔
          .level node ∈ F.lattice.iterators ∧ .level node ∉ r.iterators := by
        intro node
        rw [List.mem_append, houter, mem_getExhaustedAccesses hq hr hsubIterators, hmem]
        have hpmem : .level node ∈ p.iterators → .level node ∈ F.lattice.iterators := fun h => mem_lattice_iterators hp h
        have hrmem : .level node ∈ r.iterators → .level node ∈ p.iterators := fun h => hle h
        tauto
      obtain ⟨body, hbody, hbodyOf⟩ := bodyOf_zero hr hzeroed
      rw [← IndexExpr.zero_zero, hstmt, Option.bind_some] at hbody
      exact ⟨(r.rangers F.nodes, body), by rw [hbody]; rfl, rfl, hbodyOf⟩
    obtain ⟨clauses, hclauses, hforall⟩ := forall₂_of_mapM hclause
    refine ⟨⟨q.rangers F.nodes, q.iterators, q.mergers F.nodes, q.locators,
      .case clauses ((F.lattice.subLattice p).exact F.nodes)⟩, q,
      ⟨hq, hmem, rfl, rfl, rfl, rfl, Or.inr ⟨hlength, clauses, rfl, hforall⟩⟩, ?_⟩
    have hcases : lowerMergeCases F.nodes (F.lattice.subLattice p) stmt =
        some (.case clauses ((F.lattice.subLattice p).exact F.nodes)) := by
      rw [lowerMergeCases, hsubIterators, if_neg hlength]
      exact congrArg (·.bind fun cases => some (MergeCases.case cases ((F.lattice.subLattice p).exact F.nodes))) hclauses
    have hhead : (F.lattice.subLattice p).head? = some q := by rw [hsub, List.head?_cons]
    simp [lowerMergePoint, hcases, hhead]

/-- The loops of the lattice are those of its points, in order. -/
theorem lowerMergeLattice_loopOf (F : Forall V) : ∃ loops, lowerMergeLattice F.nodes F.lattice F.expr = some loops ∧
    List.Forall₂ (fun p loop => ∃ q, LoopOf F p q loop) F.lattice loops := by
  refine forall₂_of_mapM fun p hp => ?_
  obtain ⟨loop, q, hloop, hlower⟩ := lowerMergePoint_loopOf hp
  exact ⟨loop, hlower, q, hloop⟩

end Forall

end Lower
end Taco
