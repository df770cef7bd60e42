import Taco.Lower.Cursors
import Taco.Lower.MergeEmission

/-! The head of a pass of a merge loop: it finds the coordinates of all iterators of the point, or it jumps. -/

namespace Taco
namespace Lower

variable {V : Type} [Ring V] {F : Forall V} {q : MergePoint} {s t : State}

/-! ### Rangers and mergers -/

theorem isFull_iff (hq : q ∈ F.lattice) {it : Iterator} (hit : it ∈ q.iterators) : it.isFull F.nodes = true ↔ it = .dimension := by
  rw [(F.isLattice.merged q hq it hit).isFull, Iterator.isDimensionIterator_iff]

theorem mergers_of_dimension (hq : q ∈ F.lattice) (hdim : .dimension ∈ q.iterators) : q.mergers F.nodes = [.dimension] := by
  have hany : (q.iterators.any fun it => it.isFull F.nodes) = true :=
    List.any_eq_true.mpr ⟨_, hdim, (isFull_iff hq hdim).mpr rfl⟩
  rw [MergePoint.mergers, if_pos hany]
  have hnodup := (F.isLattice.nodup q hq).filter fun it => it.isFull F.nodes
  have hmem : ∀ it, it ∈ q.iterators.filter (fun it => it.isFull F.nodes) ↔ it = .dimension := fun it => by
    rw [List.mem_filter]
    exact ⟨fun h => (isFull_iff hq h.1).mp h.2, fun h => h ▸ ⟨hdim, (isFull_iff hq hdim).mpr rfl⟩⟩
  exact List.perm_singleton.mp ((List.perm_ext_iff_of_nodup hnodup (List.nodup_singleton _)).mpr fun it => by simp [hmem])

theorem mergers_of_not_dimension (hq : q ∈ F.lattice) (hdim : .dimension ∉ q.iterators) :
    q.mergers F.nodes = q.iterators := by
  have hnot : ∀ it ∈ q.iterators, it ≠ .dimension := fun it hit h => hdim (h ▸ hit)
  have hany : (q.iterators.any fun it => it.isFull F.nodes) = false :=
    List.any_eq_false.mpr fun it hit => mt (isFull_iff hq hit).mp (hnot it hit)
  have hcount : (q.iterators.countP fun it => !it.isFull F.nodes && it.isDimensionIterator) = 0 :=
    List.countP_eq_zero.mpr fun it hit => by simp [hnot it hit]
  simp [MergePoint.mergers, hany, hcount]

theorem mem_rangers (hq : q ∈ F.lattice) {it : Iterator} : it ∈ q.rangers F.nodes ↔
    it ∈ q.iterators ∧ (it = .dimension → ∀ it' ∈ q.iterators, it' = .dimension) := by
  rw [MergePoint.rangers]
  split_ifs with h
  · obtain ⟨it', hit', hne⟩ := List.any_eq_true.mp h
    have hne : it' ≠ .dimension := fun heq => by simp [(isFull_iff hq hit').mpr heq] at hne
    rw [List.mem_filter]
    refine and_congr_right fun hit => ?_
    rw [Bool.not_eq_true', ← Bool.not_eq_true, isFull_iff hq hit]
    exact ⟨fun hnot heq => absurd heq hnot, fun hall heq => hne (hall heq it' hit')⟩
  · refine (and_iff_left fun _ it' hit' => ?_).symm
    rw [Bool.not_eq_true, List.any_eq_false] at h
    exact (isFull_iff hq hit').mp (by simpa using h it' hit')

/-! ### Jumps -/

/-- The positions of the iterators are loaded. -/
def InBounds (F : Forall V) (q : MergePoint) (s : State) : Prop := ∀ it ∈ q.iterators, it ≠ .dimension →
  (it.positions F.nodes).1 ≤ s.posVar it ∧ s.posVar it < (it.positions F.nodes).2

/-- A pass that continues has passed a position at which nothing is stored; one that breaks has found an operand of which
    nothing is left. -/
def JumpsTo (F : Forall V) (q : MergePoint) (s : State) : Jump × State → Prop
  | (.continueLoop, t) => t.coordVar .dimension = s.coordVar .dimension ∧
    (∃ it ∈ q.iterators, it ≠ .dimension ∧ s.posVar it < (it.positions F.nodes).2 ∧
      t.posVar = Function.update s.posVar it (s.posVar it + 1)) ∧
    ∀ node k, Pending F.nodes t node k ↔ Pending F.nodes s node k
  | (.breakLoop, t) => t.posVar = s.posVar ∧ (.dimension ∈ q.iterators → t.coordVar .dimension = s.coordVar .dimension) ∧
    ∃ node, .level node ∈ q.iterators ∧ ∀ k, ¬Pending F.nodes s node k

omit [Ring V] in
theorem JumpsTo.congr {s' : State} (hpos : s'.posVar = s.posVar) (hdim : s'.coordVar .dimension = s.coordVar .dimension)
    {e : Jump × State} (h : JumpsTo F q s' e) : JumpsTo F q s e := by
  have hpending : ∀ node k, Pending F.nodes s' node k ↔ Pending F.nodes s node k := fun node k =>
    pending_congr (by rw [hpos]) (by rw [hpos])
  match e, h with
  | (.continueLoop, t), ⟨hcoord, ⟨it, hit, hne, hlt, hupdate⟩, hp⟩ =>
    exact ⟨hcoord.trans hdim, ⟨it, hit, hne, hpos ▸ hlt, by rw [hupdate, hpos]⟩, fun node k => (hp node k).trans (hpending node k)⟩
  | (.breakLoop, t), ⟨hsame, hcoord, node, hnode, hnone⟩ =>
    exact ⟨hsame.trans hpos, fun h => (hcoord h).trans hdim, node, hnode, fun k hk => hnone k ((hpending node k).mpr hk)⟩

/-- An access of a point is that of a compressed operand of the expression. -/
theorem compressed_of_mem (hq : q ∈ F.lattice) {it : Iterator} (hit : it ∈ q.iterators) {node : ℕ}
    (hnode : it.modeAccess = some node) : (F.nodes node).isCompressed = true ∧ (F.nodes node).WellFormed F.dimension ∧
      .level node ∈ q.iterators := by
  have hF := F.isLattice
  refine ⟨?_, F.wellFormed node (hF.accesses q hq it hit node hnode), ?_⟩
  · cases hF.merged q hq it hit with
    | dimension => cases hnode
    | level h => exact Option.some.inj hnode ▸ h
    | indexSet h => exact Option.some.inj hnode ▸ h
  · cases it with
    | dimension => cases hnode
    | level node' => exact Option.some.inj hnode ▸ hit
    | indexSet node' => exact Option.some.inj hnode ▸ ((hF.indexSet_iff q hq node').mp hit).1

omit [Ring V] in
/-- Skipping a position at which nothing is stored. -/
theorem pending_skip {node : ℕ} (hnone : ∀ k, ¬(F.nodes node).Stores k (s.posVar (.level node))) (node' : ℕ) (k : ℤ) :
    Pending F.nodes (s.setPos (.level node) (s.posVar (.level node) + 1)) node' k ↔ Pending F.nodes s node' k := by
  by_cases hne : node' = node
  · subst hne
    refine ⟨fun h => h.anti fun it => by simp only [State.setPos_posVar]; split_ifs <;> simp_all, ?_⟩
    rintro ⟨pos, hpos, hle, hset⟩
    refine ⟨pos, hpos, ?_, by simpa using hset⟩
    have hne : s.posVar (.level node') ≠ pos := by
      rintro rfl
      exact hnone k hpos
    simp only [State.setPos_posVar, if_true]
    omega
  · exact pending_congr (by simp [hne]) (by simp)

/-! ### Loads -/

/-- What is in the coordinate variable of an iterator after the loads. -/
def Loaded (F : Forall V) (s : State) : Iterator → ℤ → Prop
  | .dimension, _ => True
  | .level node, c =>
    if (Iterator.level node).hasIndexSet F.nodes then c = (Iterator.level node).posAccess F.nodes (s.posVar (.level node))
    else AtHead F.nodes s node c
  | .indexSet node, c => c = (Iterator.indexSet node).posAccess F.nodes (s.posVar (.indexSet node))

theorem loadCoordinate_spec (hq : q ∈ F.lattice) (hbounds : InBounds F q s) {it : Iterator} (hit : it ∈ q.iterators)
    (hne : it ≠ .dimension) (target : Iterator) (htarget : target = it ∨ .dimension ∉ q.iterators) :
    match loadCoordinate F.nodes target it s with
    | .ok t => ∃ c, t = s.setCoord target c ∧ Loaded F s it c
    | .error e => JumpsTo F q s e := by
  have htargetDim : .dimension ∈ q.iterators → target ≠ .dimension := fun hdim =>
    (htarget.resolve_right (not_not_intro hdim)) ▸ hne
  cases it with
  | dimension => exact absurd rfl hne
  | indexSet node =>
    have hset := ((F.isLattice.indexSet_iff q hq node).mp hit).2
    rw [(loadCoordinate_indexSet hset target).2]
    exact ⟨_, rfl, rfl⟩
  | level node =>
    obtain ⟨hc, hwell, -⟩ := compressed_of_mem hq hit rfl
    obtain ⟨hstart, hstop⟩ := hbounds _ hit hne
    cases hset : (Iterator.level node).hasIndexSet F.nodes with
    | true =>
      rw [(loadCoordinate_indexSet hset target).1]
      exact ⟨_, rfl, by simp [Loaded, hset]⟩
    | false =>
      rcases loadCoordinate_level hwell hc hset hstart hstop target with ⟨k, hload, hhead⟩ | ⟨hload, hnone⟩ | ⟨c, hload, hnone⟩
      · rw [hload]
        exact ⟨k, rfl, by simpa [Loaded, hset] using hhead⟩
      · rw [hload]
        exact ⟨rfl, ⟨_, hit, hne, hstop, rfl⟩, pending_skip hnone⟩
      · rw [hload]
        refine ⟨rfl, fun hdim => ?_, node, hit, hnone⟩
        simp [(htargetDim hdim).symm]

omit [Ring V] in
theorem Loaded.congr (hpos : t.posVar = s.posVar) (it : Iterator) (c : ℤ) : Loaded F t it c ↔ Loaded F s it c := by
  cases it with
  | dimension => exact Iff.rfl
  | level node => rw [Loaded, Loaded, AtHead, AtHead, hpos]
  | indexSet node => rw [Loaded, Loaded, hpos]

theorem codeToLoadCoordinatesFromPosIterators_spec (hq : q ∈ F.lattice) (hbounds : InBounds F q s)
    (hlength : 1 < q.iterators.length) :
    match codeToLoadCoordinatesFromPosIterators F.nodes q.iterators s with
    | .ok t => t.posVar = s.posVar ∧ t.coordVar .dimension = s.coordVar .dimension ∧
        ∀ it ∈ q.iterators, it ≠ .dimension → Loaded F s it (t.coordVar it)
    | .error e => JumpsTo F q s e := by
  have hmem : ∀ it, it ∈ q.iterators.filter (fun it => it.hasPosIter F.nodes) ↔ it ∈ q.iterators ∧ it ≠ .dimension := by
    intro it
    rw [List.mem_filter]
    exact and_congr_right fun hit => by simp [(F.isLattice.merged q hq it hit).hasPosIter]
  have hnodup := (F.isLattice.nodup q hq).filter fun it => it.hasPosIter F.nodes
  rw [codeToLoadCoordinatesFromPosIterators, if_pos hlength]
  have hfold := foldlM_induct (f := fun s it => loadCoordinate F.nodes it it s) (Q := JumpsTo F q s)
    (l := q.iterators.filter fun it => it.hasPosIter F.nodes)
    (fun before t => t.posVar = s.posVar ∧ t.coordVar .dimension = s.coordVar .dimension ∧
      ∀ it ∈ before, Loaded F s it (t.coordVar it)) ?_ (s := s) ⟨rfl, rfl, by simp⟩
  · cases hres : (q.iterators.filter fun it => it.hasPosIter F.nodes).foldlM (fun s it => loadCoordinate F.nodes it it s) s with
    | error e => rw [hres] at hfold; exact hfold
    | ok t =>
      rw [hres] at hfold
      exact ⟨hfold.1, hfold.2.1, fun it hit hne => hfold.2.2 it ((hmem it).mpr ⟨hit, hne⟩)⟩
  · rintro before it after t hl ⟨hpos, hdim, hloaded⟩
    obtain ⟨hit, hne⟩ := (hmem it).mp (by rw [hl]; simp)
    have hspec := loadCoordinate_spec (s := t) hq (fun it hit hne => by rw [hpos]; exact hbounds it hit hne) hit hne it
      (Or.inl rfl)
    cases hload : loadCoordinate F.nodes it it t with
    | error e =>
      rw [hload] at hspec
      exact hspec.congr hpos hdim
    | ok u =>
      rw [hload] at hspec
      obtain ⟨c, rfl, hc⟩ := hspec
      refine ⟨hpos, ?_, fun it' hit' => ?_⟩
      · simpa [hne.symm] using hdim
      · rcases List.mem_append.mp hit' with hbefore | hlast
        · have hne' : it' ≠ it := by
            rintro rfl
            rw [hl] at hnodup
            exact (List.nodup_append.mp hnodup).2.2 it' hbefore it' List.mem_cons_self rfl
          simpa [hne'] using hloaded it' hbefore
        · obtain rfl := List.mem_singleton.mp hlast
          simpa using (Loaded.congr hpos _ c).mp hc

/-! ### Index sets -/

theorem codeToMatchIndexSets_spec (hq : q ∈ F.lattice) (hbounds : InBounds F q s) (hpos : t.posVar = s.posVar)
    (hdim : t.coordVar .dimension = s.coordVar .dimension)
    (hloaded : ∀ it ∈ q.iterators, it ≠ .dimension → Loaded F s it (t.coordVar it)) :
    match codeToMatchIndexSets F.nodes q.iterators t with
    | .ok u => u.posVar = s.posVar ∧ u.coordVar .dimension = s.coordVar .dimension ∧
        ∀ it ∈ q.iterators, ∀ node, it.modeAccess = some node → AtHead F.nodes s node (u.coordVar it)
    | .error e => JumpsTo F q s e := by
  have hmem : ∀ it, it ∈ q.iterators.filter (fun it => it.hasIndexSet F.nodes) ↔
      ∃ node, it = .level node ∧ .level node ∈ q.iterators ∧ (Iterator.level node).hasIndexSet F.nodes = true := by
    intro it
    rw [List.mem_filter]
    cases it <;> simp [Iterator.hasIndexSet]
  have hnodup := (F.isLattice.nodup q hq).filter fun it => it.hasIndexSet F.nodes
  rw [codeToMatchIndexSets]
  have hfold := foldlM_induct (f := fun s it => matchIndexSet it it.getIndexSetIterator s) (Q := JumpsTo F q s)
    (l := q.iterators.filter fun it => it.hasIndexSet F.nodes)
    (fun before u => u.posVar = s.posVar ∧ u.coordVar .dimension = s.coordVar .dimension ∧
      ∀ it ∈ q.iterators, ∀ node, it.modeAccess = some node →
        if .level node ∈ before then AtHead F.nodes s node (u.coordVar it) else u.coordVar it = t.coordVar it) ?_ (s := t)
    ⟨hpos, hdim, by simp⟩
  · cases hres : (q.iterators.filter fun it => it.hasIndexSet F.nodes).foldlM
        (fun s it => matchIndexSet it it.getIndexSetIterator s) t with
    | error e => rw [hres] at hfold; exact hfold
    | ok u =>
      rw [hres] at hfold
      refine ⟨hfold.1, hfold.2.1, fun it hit node hnode => ?_⟩
      have hu := hfold.2.2 it hit node hnode
      split_ifs at hu with hlevel
      · exact hu
      · -- An access without an index set is loaded.
        have hset : (Iterator.level node).hasIndexSet F.nodes = false := by
          by_contra h
          exact hlevel ((hmem _).mpr ⟨node, rfl, (compressed_of_mem hq hit hnode).2.2, by simpa using h⟩)
        cases it with
        | dimension => cases hnode
        | indexSet node' =>
          obtain rfl := Option.some.inj hnode
          have := ((F.isLattice.indexSet_iff q hq _).mp hit).2
          rw [hset] at this
          cases this
        | level node' =>
          obtain rfl := Option.some.inj hnode
          have hload := hloaded _ hit (by simp)
          rw [Loaded, hset] at hload
          rw [hu]
          exact hload
  · rintro before it after u hl ⟨hupos, hudim, hu⟩
    obtain ⟨node, rfl, hlevel, hset⟩ := (hmem it).mp (by rw [hl]; simp)
    obtain ⟨hc, hwell, -⟩ := compressed_of_mem hq hlevel rfl
    have hindexSet := (F.isLattice.indexSet_iff q hq node).mpr ⟨hlevel, hset⟩
    have hnot : .level node ∉ before := fun h => by
      rw [hl] at hnodup
      exact (List.nodup_append.mp hnodup).2.2 _ h _ List.mem_cons_self rfl
    have hulevel := hu _ hlevel node rfl
    have huset := hu _ hindexSet node rfl
    rw [if_neg hnot] at hulevel huset
    have hllevel := hloaded _ hlevel (by simp)
    have hlset := hloaded _ hindexSet (by simp)
    rw [Loaded, if_pos hset] at hllevel
    rw [Loaded] at hlset
    have hblevel := hbounds _ hlevel (by simp)
    have hbset := hbounds _ hindexSet (by simp)
    rcases matchIndexSet_spec (s := u) hwell hc hset (by rw [hupos]; exact hblevel.1) (by rw [hupos]; exact hblevel.2)
      (by rw [hupos]; exact hbset.2) (by rw [hulevel, hllevel, hupos]) (by rw [huset, hlset, hupos]) with
      ⟨hmatch, hhead⟩ | ⟨it, hit, hmatch, hpending⟩
    · rw [Iterator.getIndexSetIterator, hmatch]
      have hhead : AtHead F.nodes s node (u.posVar (.indexSet node)) := by
        rw [AtHead, hupos] at hhead
        rw [hupos]
        exact hhead
      refine ⟨hupos, by simpa using hudim, fun it' hit' node' hnode' => ?_⟩
      by_cases hne : node' = node
      · subst hne
        rw [if_pos (by simp)]
        cases it' with
        | dimension => cases hnode'
        | level x => obtain rfl := Option.some.inj hnode'; simpa using hhead
        | indexSet x => obtain rfl := Option.some.inj hnode'; simpa using hhead
      · have hold := hu it' hit' node' hnode'
        have hcoord : ((u.setCoord (.level node) (u.posVar (.indexSet node))).setCoord (.indexSet node)
            (u.posVar (.indexSet node))).coordVar it' = u.coordVar it' := by
          cases it' with
          | dimension => cases hnode'
          | level x => obtain rfl := Option.some.inj hnode'; simp [hne]
          | indexSet x => obtain rfl := Option.some.inj hnode'; simp [hne]
        rw [hcoord]
        simpa [hne] using hold
    · rw [Iterator.getIndexSetIterator, hmatch]
      have hitmem : it ∈ q.iterators ∧ it ≠ .dimension ∧ it.modeAccess = some node := by
        rcases hit with rfl | rfl
        · exact ⟨hlevel, by simp, rfl⟩
        · exact ⟨hindexSet, by simp, rfl⟩
      refine JumpsTo.congr hupos hudim ⟨rfl, ⟨it, hitmem.1, hitmem.2.1, ?_, rfl⟩, fun node' k => ?_⟩
      · rw [hupos]
        exact (hbounds it hitmem.1 hitmem.2.1).2
      · by_cases hne : node' = node
        · exact hne ▸ hpending k
        · refine pending_congr ?_ ?_
          · rcases hit with rfl | rfl <;> simp [hne]
          · rcases hit with rfl | rfl <;> simp [hne]

/-! ### The coordinate -/

/-- The state in which the body is executed: the iterators are at the heads of their operands, and the coordinate is the
    lowest of them or that of the dimension. -/
structure Ready (F : Forall V) (q : MergePoint) (s t : State) : Prop where
  posVar : t.posVar = s.posVar
  head : ∀ it ∈ q.iterators, ∀ node, it.modeAccess = some node →
    ∃ k, AtHead F.nodes s node k ∧ (q.iterators.length ≠ 1 → t.coordVar it = k)
  dimension : .dimension ∈ q.iterators → t.coordVar .dimension = s.coordVar .dimension
  lowest : .dimension ∉ q.iterators → (∃ node, .level node ∈ q.iterators ∧ AtHead F.nodes s node (t.coordVar .dimension)) ∧
    ∀ node k, .level node ∈ q.iterators → AtHead F.nodes s node k → t.coordVar .dimension ≤ k

/-- The statements at the head of a pass. -/
def passHead (F : Forall V) (q : MergePoint) (s : State) : Exec := do
  let s ← codeToLoadCoordinatesFromPosIterators F.nodes q.iterators s
  let s ← codeToMatchIndexSets F.nodes q.iterators s
  resolveCoordinate F.nodes (q.mergers F.nodes) s

omit [Ring V] in
theorem resolveCoordinate_of_length {mergers : List Iterator} (h : mergers.length ≠ 1) :
    resolveCoordinate F.nodes mergers s = .ok (s.setCoord .dimension ((mergers.map s.coordVar).min?.getD 0)) := by
  match mergers with
  | [] => rfl
  | [_] => exact absurd rfl h
  | _ :: _ :: _ => rfl

/-- A point with one iterator loads it into the coordinate. -/
theorem passHead_single (hq : q ∈ F.lattice) (hbounds : InBounds F q s) {it : Iterator} (hsingle : q.iterators = [it]) :
    match passHead F q s with
    | .ok t => Ready F q s t
    | .error e => JumpsTo F q s e := by
  have hit : it ∈ q.iterators := by rw [hsingle]; exact List.mem_singleton_self it
  have hmatch : codeToMatchIndexSets F.nodes q.iterators s = .ok s := by
    have hnone : it.hasIndexSet F.nodes = false := by
      cases it with
      | dimension | indexSet node => rfl
      | level node =>
        rw [← Bool.not_eq_true]
        intro hset
        have hmem := (F.isLattice.indexSet_iff q hq node).mpr ⟨hit, hset⟩
        simp [hsingle] at hmem
    simp [codeToMatchIndexSets, hsingle, hnone, pure, Except.pure]
  have hhead : passHead F q s = resolveCoordinate F.nodes (q.mergers F.nodes) s := by
    have hload : codeToLoadCoordinatesFromPosIterators F.nodes q.iterators s = .ok s := by
      simp [codeToLoadCoordinatesFromPosIterators, hsingle]
    simp only [passHead, hload, hmatch, bind, Except.bind]
  rw [hhead]
  cases it with
  | dimension =>
    rw [mergers_of_dimension hq hit]
    refine ⟨rfl, fun it hit node hnode => ?_, fun _ => rfl, fun hdim => absurd hit hdim⟩
    rw [hsingle, List.mem_singleton] at hit
    subst hit
    cases hnode
  | indexSet node =>
    have hmem := ((F.isLattice.indexSet_iff q hq node).mp hit).1
    simp [hsingle] at hmem
  | level node =>
    have hdim : .dimension ∉ q.iterators := by simp [hsingle]
    have hspec := loadCoordinate_spec hq hbounds hit (by simp) .dimension (Or.inr hdim)
    have hpos : (Iterator.level node).hasPosIter F.nodes = true := by simp [(F.isLattice.merged q hq _ hit).hasPosIter]
    have hset : (Iterator.level node).hasIndexSet F.nodes = false := by
      rw [← Bool.not_eq_true]
      intro hset
      have hmem := (F.isLattice.indexSet_iff q hq node).mpr ⟨hit, hset⟩
      simp [hsingle] at hmem
    rw [mergers_of_not_dimension hq hdim, hsingle, resolveCoordinate, if_pos hpos]
    cases hload : loadCoordinate F.nodes .dimension (.level node) s with
    | error e =>
      rw [hload] at hspec
      exact hspec
    | ok t =>
      rw [hload] at hspec
      obtain ⟨c, rfl, hc⟩ := hspec
      have hc : AtHead F.nodes s node c := by simpa [Loaded, hset] using hc
      refine ⟨rfl, fun it hit node' hnode => ?_, fun h => absurd h hdim, fun _ => ⟨⟨node, hit, by simpa using hc⟩, ?_⟩⟩
      · rw [hsingle, List.mem_singleton] at hit
        subst hit
        obtain rfl := Option.some.inj hnode
        exact ⟨c, hc, fun hlength => absurd (by rw [hsingle]; rfl) hlength⟩
      · intro node' k hnode' hk
        rw [hsingle, List.mem_singleton] at hnode'
        obtain rfl := Iterator.level.inj hnode'
        obtain rfl := hk.unique (compressed_of_mem hq hit rfl).2.1 hc
        simp

theorem passHead_spec (hq : q ∈ F.lattice) (hbounds : InBounds F q s) :
    match passHead F q s with
    | .ok t => Ready F q s t
    | .error e => JumpsTo F q s e := by
  by_cases hlength : q.iterators.length = 1
  · obtain ⟨it, hsingle⟩ := List.length_eq_one_iff.mp hlength
    exact passHead_single hq hbounds hsingle
  have hlt : 1 < q.iterators.length := by
    have := List.length_pos_of_ne_nil (F.isLattice.iterators_ne_nil q hq)
    omega
  have hload := codeToLoadCoordinatesFromPosIterators_spec hq hbounds hlt
  rw [passHead]
  cases hl : codeToLoadCoordinatesFromPosIterators F.nodes q.iterators s with
  | error e =>
    rw [hl] at hload
    exact hload
  | ok t =>
    rw [hl] at hload
    obtain ⟨hpos, hdim, hloaded⟩ := hload
    have hmatch := codeToMatchIndexSets_spec hq hbounds hpos hdim hloaded
    simp only [bind, Except.bind]
    cases hm : codeToMatchIndexSets F.nodes q.iterators t with
    | error e =>
      rw [hm] at hmatch
      exact hmatch
    | ok u =>
      rw [hm] at hmatch
      obtain ⟨hpos, hdim, hheads⟩ := hmatch
      by_cases hmem : .dimension ∈ q.iterators
      · rw [mergers_of_dimension hq hmem]
        exact ⟨hpos, fun it hit node hnode => ⟨_, hheads it hit node hnode, fun _ => rfl⟩, fun _ => hdim,
          fun h => absurd hmem h⟩
      · dsimp only
        rw [mergers_of_not_dimension hq hmem, resolveCoordinate_of_length hlength]
        -- The coordinate is the lowest one of the iterators.
        have hne : q.iterators.map u.coordVar ≠ [] := by
          simpa using F.isLattice.iterators_ne_nil q hq
        obtain ⟨i, hi⟩ := Option.ne_none_iff_exists'.mp (mt List.min?_eq_none_iff.mp hne)
        obtain ⟨himem, hile⟩ := List.min?_eq_some_iff.mp hi
        rw [hi]
        have hcoord : ∀ it ∈ q.iterators, (u.setCoord .dimension i).coordVar it = u.coordVar it := by
          intro it hit
          have hne : it ≠ .dimension := fun h => hmem (h ▸ hit)
          simp [hne]
        refine ⟨hpos, fun it hit node hnode => ⟨_, hheads it hit node hnode, fun _ => hcoord it hit⟩, fun h => absurd h hmem,
          fun _ => ⟨?_, fun node k hnode hk => ?_⟩⟩
        · obtain ⟨it, hit, rfl⟩ := List.mem_map.mp himem
          cases hnode : it.modeAccess with
          | none =>
            cases it with
            | dimension => exact absurd hit hmem
            | level node | indexSet node => cases hnode
          | some node =>
            exact ⟨node, (compressed_of_mem hq hit hnode).2.2, by simpa using hheads it hit node hnode⟩
        · have hk' := hheads _ hnode node rfl
          obtain rfl := hk.unique (compressed_of_mem hq hnode rfl).2.1 hk'
          simpa using hile _ (List.mem_map_of_mem hnode)

end Lower
end Taco
