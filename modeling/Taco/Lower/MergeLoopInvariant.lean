import Taco.Lower.MergePass
import Taco.Lower.VisitedCoordinates

/-! What holds before each pass of the merge loops. -/

namespace Taco
namespace Lower

variable {V : Type}

/-! ### Variables -/

section

variable {nodes : ℕ → AccessNode V} {s : State} {it : Iterator} {node : ℕ}

@[simp] theorem declLocatePosVars_coordVar : ∀ (locators : List Iterator) (s : State),
    (declLocatePosVars nodes locators s).coordVar = s.coordVar
  | [], _ => rfl
  | .level _ :: locators, _ | .indexSet _ :: locators, _ | .dimension :: locators, _ =>
    (declLocatePosVars_coordVar locators _).trans rfl

theorem declLocatePosVars_posVar_of_notMem : ∀ {locators : List Iterator} {s : State}, it ∉ locators →
    (declLocatePosVars nodes locators s).posVar it = s.posVar it
  | [], _, _ => rfl
  | .indexSet _ :: locators, s, h | .dimension :: locators, s, h =>
    show (declLocatePosVars nodes locators s).posVar it = s.posVar it from
      declLocatePosVars_posVar_of_notMem fun hmem => h (List.mem_cons_of_mem _ hmem)
  | .level node :: locators, s, h => by
    obtain ⟨hne, hnot⟩ := not_or.mp (mt List.mem_cons.mpr h)
    refine (declLocatePosVars_posVar_of_notMem (s := s.setPos (.level node) _) hnot).trans ?_
    simp [hne]

/-- A locator is at the position of the coordinate. -/
theorem declLocatePosVars_posVar_of_mem : ∀ {locators : List Iterator} {s : State}, .level node ∈ locators →
    (declLocatePosVars nodes locators s).posVar (.level node) = locate nodes node (s.coordVar .dimension)
  | .indexSet _ :: locators, s, h | .dimension :: locators, s, h =>
    show (declLocatePosVars nodes locators s).posVar (.level node) = locate nodes node (s.coordVar .dimension) from
      declLocatePosVars_posVar_of_mem ((List.mem_cons.mp h).resolve_left (by simp))
  | .level node' :: locators, s, h => by
    by_cases hmem : .level node ∈ locators
    · exact declLocatePosVars_posVar_of_mem (s := s.setPos (.level node') _) hmem
    · have hsame : Iterator.level node = .level node' := (List.mem_cons.mp h).resolve_right hmem
      refine (declLocatePosVars_posVar_of_notMem (s := s.setPos (.level node') _) hmem).trans ?_
      obtain rfl := Iterator.level.inj hsame
      simp

/-- Each iterator of a list advances once. -/
theorem foldl_setPos (step : (Iterator → ℤ) → Iterator → ℕ) : ∀ {iterators : List Iterator} {s : State}, iterators.Nodup →
    (iterators.foldl (fun s it => s.setPos it (s.posVar it + step s.coordVar it)) s).coordVar = s.coordVar ∧
      ∀ it, (iterators.foldl (fun s it => s.setPos it (s.posVar it + step s.coordVar it)) s).posVar it =
        if it ∈ iterators then s.posVar it + step s.coordVar it else s.posVar it
  | [], _, _ => ⟨rfl, fun _ => rfl⟩
  | it :: iterators, s, hnodup => by
    obtain ⟨hnot, hnodup⟩ := List.nodup_cons.mp hnodup
    obtain ⟨hcoord, hpos⟩ := foldl_setPos step (s := s.setPos it (s.posVar it + step s.coordVar it)) hnodup
    refine ⟨hcoord, fun it' => ?_⟩
    rw [List.foldl_cons, hpos]
    by_cases hsame : it' = it
    · subst hsame
      simp [hnot]
    · simp [hsame]

end

variable [Ring V] {F : Forall V} {p q r : MergePoint} {s t : State} {c k : ℤ} {it : Iterator} {node : ℕ}

/-- The iterators at the coordinate advance, and so does the dimension iterator. -/
theorem codeToIncIteratorVars_spec (hq : q ∈ F.lattice) :
    (∀ it, (codeToIncIteratorVars F.nodes q.iterators t).posVar it = t.posVar it +
      if it ∈ q.iterators ∧ it ≠ .dimension ∧ (q.iterators.length = 1 ∨ t.coordVar it = t.coordVar .dimension) then 1 else 0) ∧
    (.dimension ∈ q.iterators →
      (codeToIncIteratorVars F.nodes q.iterators t).coordVar .dimension = t.coordVar .dimension + 1) := by
  by_cases hlength : q.iterators.length = 1
  · obtain ⟨it', hsingle⟩ := List.length_eq_one_iff.mp hlength
    have hposIter := (F.isLattice.merged q hq it' (by rw [hsingle]; exact List.mem_singleton_self it')).hasPosIter
    rw [hsingle, codeToIncIteratorVars]
    cases it' with
    | dimension => simp [hposIter]
    | level node | indexSet node =>
      refine ⟨fun it => ?_, by simp⟩
      by_cases hit : it = .level node <;> by_cases hit' : it = .indexSet node <;> simp_all
  · have hinc : codeToIncIteratorVars F.nodes q.iterators t = (q.iterators.filter Iterator.isDimensionIterator).foldl
        (fun s it => s.setCoord it (s.coordVar it + 1)) ((q.iterators.filter fun it => !it.isDimensionIterator).foldl
          (fun s it => s.setPos it (s.posVar it +
            if it.isFull F.nodes then 1 else if s.coordVar it = s.coordVar .dimension then 1 else 0)) t) := by
      rw [codeToIncIteratorVars]
      intro it hsingle
      exact hlength (by rw [hsingle]; rfl)
    obtain ⟨hcoord, hpos⟩ := foldl_setPos (s := t)
      (fun coordVar it => if it.isFull F.nodes then 1 else if coordVar it = coordVar .dimension then 1 else 0)
      ((F.isLattice.nodup q hq).filter fun it => !it.isDimensionIterator)
    rw [hinc]
    have hdims : (.dimension ∈ q.iterators → q.iterators.filter Iterator.isDimensionIterator = [.dimension]) ∧
        (.dimension ∉ q.iterators → q.iterators.filter Iterator.isDimensionIterator = []) := by
      have hnodup := (F.isLattice.nodup q hq).filter Iterator.isDimensionIterator
      refine ⟨fun hdim => ?_, fun hdim => List.filter_eq_nil_iff.mpr fun it hit h => ?_⟩
      · refine List.perm_singleton.mp ((List.perm_ext_iff_of_nodup hnodup (List.nodup_singleton _)).mpr fun it => ?_)
        rw [List.mem_filter, Iterator.isDimensionIterator_iff, List.mem_singleton]
        exact ⟨And.right, fun h => ⟨h ▸ hdim, h⟩⟩
      · exact hdim (Iterator.isDimensionIterator_iff.mp h ▸ hit)
    have hstep : ∀ it, (if it ∈ q.iterators.filter fun it => !it.isDimensionIterator then
        t.posVar it + if it.isFull F.nodes then 1 else if t.coordVar it = t.coordVar .dimension then 1 else 0
        else t.posVar it) = t.posVar it +
          if it ∈ q.iterators ∧ it ≠ .dimension ∧ (q.iterators.length = 1 ∨ t.coordVar it = t.coordVar .dimension) then 1
          else 0 := by
      intro it
      by_cases hit : it ∈ q.iterators
      · by_cases hdim : it = .dimension
        · simp [hdim]
        · have hfull : it.isFull F.nodes = false := by
            rw [← Bool.not_eq_true, isFull_iff hq hit]
            exact hdim
          simp [hit, hdim, hfull, hlength]
      · simp [hit]
    by_cases hdim : .dimension ∈ q.iterators
    · rw [hdims.1 hdim]
      refine ⟨fun it => ?_, fun _ => ?_⟩
      · exact (hpos it).trans (hstep it)
      · simp [hcoord]
    · rw [hdims.2 hdim]
      exact ⟨fun it => (hpos it).trans (hstep it), fun h => absurd h hdim⟩

/-! ### The invariant -/

/-- Nothing is left of an operand of the point. -/
def Exhausted (F : Forall V) (r : MergePoint) (s : State) : Prop :=
  ∃ node, .level node ∈ r.iterators ∧ ∀ k, ¬Pending F.nodes s node k

/-- From a coordinate on nothing is left to do at the point. -/
def Spent (F : Forall V) (r : MergePoint) (c : ℤ) (s : State) : Prop := F.dimension ≤ c ∨ Exhausted F r s

/-- What is stored from a coordinate on is left, and at the points that are not exhausted nothing before it is. -/
structure LoopInv (F : Forall V) (c : ℤ) (s : State) : Prop where
  le_dimension : c ≤ F.dimension
  start_le : ∀ it ∈ F.lattice.iterators, it ≠ .dimension → (it.positions F.nodes).1 ≤ s.posVar it
  pending : ∀ node ∈ F.expr.accesses, ∀ k pos, c ≤ k → (F.nodes node).Stores k pos → Pending F.nodes s node k
  ahead : ∀ r ∈ F.lattice, Exhausted F r s ∨ ∀ node k, .level node ∈ r.iterators → Pending F.nodes s node k → c ≤ k
  dimension : .dimension ∈ F.lattice.iterators → s.coordVar .dimension = c

omit [Ring V] in
theorem Exhausted.anti (h : Exhausted F r s) (hle : ∀ node k, Pending F.nodes t node k → Pending F.nodes s node k) :
    Exhausted F r t := by
  obtain ⟨node, hnode, hnone⟩ := h
  exact ⟨node, hnode, fun k hk => hnone k (hle node k hk)⟩

omit [Ring V] in
theorem Spent.anti {c' : ℤ} (h : Spent F r c s) (hc : c ≤ c')
    (hle : ∀ node k, Pending F.nodes t node k → Pending F.nodes s node k) : Spent F r c' t :=
  h.imp (·.trans hc) (·.anti hle)

omit [Ring V] in
/-- A state with the same coordinates left. -/
theorem LoopInv.congr (h : LoopInv F c s) (hle : ∀ it, s.posVar it ≤ t.posVar it)
    (hpending : ∀ node k, Pending F.nodes t node k ↔ Pending F.nodes s node k)
    (hdim : .dimension ∈ F.lattice.iterators → t.coordVar .dimension = s.coordVar .dimension) : LoopInv F c t where
  le_dimension := h.le_dimension
  start_le it hit hne := (h.start_le it hit hne).trans (hle it)
  pending node hnode k pos hk hpos := (hpending node k).mpr (h.pending node hnode k pos hk hpos)
  ahead r hr := (h.ahead r hr).imp (fun h => h.anti fun node k => (hpending node k).mp)
    fun h node k hnode hk => h node k hnode ((hpending node k).mp hk)
  dimension hmem := (hdim hmem).trans (h.dimension hmem)

omit [Ring V] in
/-- A jump leaves the coordinates that are left. -/
theorem JumpsTo.pending_iff {jump : Jump} (h : JumpsTo F q s (jump, t)) (node : ℕ) (k : ℤ) :
    Pending F.nodes t node k ↔ Pending F.nodes s node k := by
  cases jump with
  | continueLoop => exact h.2.2 node k
  | breakLoop => exact pending_congr (by rw [h.1]) (by rw [h.1])

theorem LoopInv.of_jumpsTo {jump : Jump} (h : LoopInv F c s) (hq : q ∈ F.lattice) (hjump : JumpsTo F q s (jump, t)) :
    LoopInv F c t := by
  refine h.congr (fun it => ?_) hjump.pending_iff fun hdim => ?_
  · cases jump with
    | continueLoop =>
      obtain ⟨-, ⟨it', -, -, -, hupdate⟩, -⟩ := hjump
      rw [hupdate, Function.update_apply]
      split_ifs with hsame
      · rw [hsame]
        exact Nat.le_succ _
      · exact Nat.le_refl _
    | breakLoop => rw [hjump.1]
  · cases jump with
    | continueLoop => exact hjump.1
    | breakLoop => exact hjump.2.1 ((F.isLattice.dimension_iff q hq).mpr hdim)

/-- When the loops before that of a point have ended, the points that are not below it are exhausted. -/
theorem exhausted_of_not_subset {before after : MergeLattice} (hlattice : F.lattice = before ++ p :: after)
    (hbefore : ∀ r ∈ before, Spent F r c s) (hp : ¬Exhausted F p s) (hc : c < F.dimension) (hr : r ∈ F.lattice)
    (hnot : ¬r.iterators ⊆ p.iterators) : Exhausted F r s := by
  have hF := F.isLattice
  have hp' : p ∈ F.lattice := by rw [hlattice]; simp
  have hfits : ∀ g ∈ F.lattice, (∀ node, g.keeps node = true → p.keeps node = true ∨ r.keeps node = true) →
      g.fits (fun node => p.keeps node || r.keeps node) = true := fun g hg hkeeps =>
    MergePoint.fits_mono ((Forall.fits_keeps_iff hg hg).mpr fun _ => id) fun node hnode => Bool.or_eq_true_iff.mpr (hkeeps node hnode)
  have hpfits := hfits p hp' fun _ => Or.inl
  -- The greatest point of the accesses of both comes before the point.
  cases hfind : before.find? (MergePoint.fits fun node => p.keeps node || r.keeps node) with
  | none =>
    have hfirst : F.lattice.find? (MergePoint.fits fun node => p.keeps node || r.keeps node) = some p := by
      rw [hlattice, List.find?_append, hfind, Option.none_or, List.find?_cons_of_pos hpfits]
    exact absurd (hF.greatest _ p hfirst r hr (hfits r hr fun _ => Or.inr)) hnot
  | some g =>
    have hgbefore := List.mem_of_find?_eq_some hfind
    rcases hbefore g hgbefore with hend | ⟨node, hnode, hnone⟩
    · exact absurd hend (not_le.mpr hc)
    · have hkeeps := MergePoint.fits_iff.mp (List.find?_some hfind) _ hnode
      rcases Bool.or_eq_true_iff.mp hkeeps with hpnode | hrnode
      · exact absurd ⟨node, MergePoint.keeps_iff.mp hpnode, hnone⟩ hp
      · exact ⟨node, MergePoint.keeps_iff.mp hrnode, hnone⟩

end Lower
end Taco
