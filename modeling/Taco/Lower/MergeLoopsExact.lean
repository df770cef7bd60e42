import Taco.Lower.MergeBodies

/-! The merge loops visit, in order, the coordinates at which something is left of the expression. -/

namespace Taco
namespace Lower

open Forall (LoopOf)

variable {V : Type} [Ring V] {F : Forall V} {before after : MergeLattice} {p q r : MergePoint} {s t : State} {c : ℤ}

/-! ### One pass -/

/-- The steps that are left to an iterator. -/
def remaining (F : Forall V) (s : State) : Iterator → ℕ
  | .dimension => (F.dimension - s.coordVar .dimension).toNat
  | it => (it.positions F.nodes).2 - s.posVar it

/-- The steps that are left to the iterators of the lattice. -/
def stepsLeft (F : Forall V) (s : State) : ℕ := (F.lattice.iterators.map (remaining F s)).sum

omit [Ring V] in
theorem remaining_eq {it : Iterator} (hne : it ≠ .dimension) : remaining F s it = (it.positions F.nodes).2 - s.posVar it := by
  cases it with
  | dimension => exact absurd rfl hne
  | level node | indexSet node => rfl

omit [Ring V] in
theorem stepsLeft_lt (hle : ∀ it ∈ F.lattice.iterators, it ≠ .dimension → s.posVar it ≤ t.posVar it)
    (hdim : .dimension ∈ F.lattice.iterators → s.coordVar .dimension ≤ t.coordVar .dimension)
    (hlt : ∃ it ∈ F.lattice.iterators, remaining F t it < remaining F s it) : stepsLeft F t < stepsLeft F s := by
  refine List.sum_lt_sum _ _ (fun it hit => ?_) hlt
  by_cases h : it = .dimension
  · subst h
    have := hdim hit
    simp only [remaining]
    omega
  · rw [remaining_eq h, remaining_eq h]
    exact Nat.sub_le_sub_left (hle it hit h) _

omit [Ring V] in
theorem remaining_lt {it : Iterator} (hne : it ≠ .dimension) (hstop : s.posVar it < (it.positions F.nodes).2)
    (hpos : t.posVar it = s.posVar it + 1) : remaining F t it < remaining F s it := by
  rw [remaining_eq hne, remaining_eq hne, hpos]
  omega

theorem stepsLeft_lt_of_jumpsTo (hq : q ∈ F.lattice) (h : JumpsTo F q s (.continueLoop, t)) :
    stepsLeft F t < stepsLeft F s := by
  obtain ⟨hcoord, ⟨it, hit, hne, hstop, hupdate⟩, -⟩ := h
  refine stepsLeft_lt (fun it' _ _ => ?_) (fun _ => hcoord.ge)
    ⟨it, Forall.mem_lattice_iterators hq hit, remaining_lt hne hstop (by rw [hupdate, Function.update_self])⟩
  rw [hupdate, Function.update_apply]
  split_ifs with hsame
  · rw [hsame]
    exact Nat.le_succ _
  · exact Nat.le_refl _

/-- The state after a pass that executes a body. -/
def passEnd (F : Forall V) (q : MergePoint) (t : State) : State :=
  codeToIncIteratorVars F.nodes q.iterators (declLocatePosVars F.nodes q.locators t)

theorem pass_eq {loop : MergeLoop V} (hloop : LoopOf F p q loop) : loop.pass F.nodes s =
    match passHead F q s with
    | .error e => .error e
    | .ok t => .ok (passEnd F q t, (loop.cases.body (declLocatePosVars F.nodes q.locators t)).toList.map fun body =>
        (t.coordVar .dimension, body.eval ((declLocatePosVars F.nodes q.locators t).read F.nodes))) := by
  rw [MergeLoop.pass, passHead, hloop.iterators, hloop.mergers, hloop.locators]
  cases codeToLoadCoordinatesFromPosIterators F.nodes q.iterators s with
  | error e => rfl
  | ok t =>
    simp only [bind, Except.bind]
    cases codeToMatchIndexSets F.nodes q.iterators t with
    | error e => rfl
    | ok t =>
      dsimp only
      cases resolveCoordinate F.nodes (q.mergers F.nodes) t with
      | error e => rfl
      | ok t => simp [passEnd]

namespace Pass

variable (h : Pass F before p q c s t)

include h

theorem notMem_locators {it : Iterator} (hit : it ∈ F.lattice.iterators) : it ∉ q.locators := by
  intro hmem
  obtain ⟨node, -, hdense, rfl⟩ := F.isLattice.locators q h.mem it hmem
  obtain ⟨first, rest, hcons, hfirst⟩ := mem_iterators_of_head hit
  cases F.isLattice.merged first (hcons ▸ List.mem_cons_self) _ hfirst with
  | level hc => cases hn : F.nodes node <;> simp_all [AccessNode.isCompressed, AccessNode.isDense]

/-- The iterators at the coordinate advance. -/
theorem passEnd_posVar {it : Iterator} (hit : it ∉ q.locators) : (passEnd F q t).posVar it = s.posVar it +
    if it ∈ q.iterators ∧ it ≠ .dimension ∧ (q.iterators.length = 1 ∨ t.coordVar it = t.coordVar .dimension) then 1 else 0 := by
  rw [passEnd, (codeToIncIteratorVars_spec h.mem).1, declLocatePosVars_posVar_of_notMem hit, declLocatePosVars_coordVar,
    h.ready.posVar]

theorem passEnd_coordVar (hdim : .dimension ∈ q.iterators) :
    (passEnd F q t).coordVar .dimension = t.coordVar .dimension + 1 := by
  rw [passEnd, (codeToIncIteratorVars_spec h.mem).2 hdim, declLocatePosVars_coordVar]

/-- The iterators that advance are those of the accesses whose heads are at the coordinate. -/
theorem advances_iff {it : Iterator} {node : ℕ} (hit : it ∈ q.iterators) (hnode : it.modeAccess = some node) :
    (q.iterators.length = 1 ∨ t.coordVar it = t.coordVar .dimension) ↔ AtHead F.nodes s node (t.coordVar .dimension) := by
  have hlevel := (compressed_of_mem h.mem hit hnode).2.2
  obtain ⟨k, hk, hload⟩ := h.ready.head it hit node hnode
  by_cases hlength : q.iterators.length = 1
  · refine iff_of_true (Or.inl hlength) ((h.atHead_iff hlevel).mpr ?_)
    exact MergePoint.fits_iff.mp (h.fits_of_length hlength) _ hlevel
  · rw [or_iff_right hlength, hload hlength]
    exact ⟨fun heq => heq ▸ hk, fun hhead => hk.unique (h.wellFormed hlevel) hhead⟩

theorem notMem_locators_of_stores {node pos : ℕ} {k : ℤ} (hpos : (F.nodes node).Stores k pos) : .level node ∉ q.locators := by
  intro hmem
  obtain ⟨node', -, hdense, heq⟩ := F.isLattice.locators q h.mem _ hmem
  obtain rfl := Iterator.level.inj heq
  have hc := hpos.isCompressed
  cases hn : F.nodes node <;> simp_all [AccessNode.isCompressed, AccessNode.isDense]

theorem indexSet_notMem_locators (node : ℕ) : .indexSet node ∉ q.locators := by
  intro hmem
  obtain ⟨node', -, -, heq⟩ := F.isLattice.locators q h.mem _ hmem
  cases heq

/-- What is left after the pass: what was left but the coordinate of the pass. -/
theorem pending_passEnd {node : ℕ} {k : ℤ} : Pending F.nodes (passEnd F q t) node k ↔
    Pending F.nodes s node k ∧ (.level node ∈ q.iterators → AtHead F.nodes s node (t.coordVar .dimension) →
      t.coordVar .dimension < k) := by
  by_cases hdense : .level node ∈ q.locators
  · have hnot : ∀ u, ¬Pending F.nodes u node k := fun u ⟨pos, hpos, _⟩ => h.notMem_locators_of_stores hpos hdense
    exact iff_of_false (hnot _) fun hp => hnot _ hp.1
  have hlevel := h.passEnd_posVar hdense
  have hset := h.passEnd_posVar (h.indexSet_notMem_locators node)
  by_cases hhead : .level node ∈ q.iterators ∧ AtHead F.nodes s node (t.coordVar .dimension)
  · obtain ⟨hmem, hhead⟩ := hhead
    rw [if_pos ⟨hmem, by simp, (h.advances_iff hmem rfl).mpr hhead⟩] at hlevel
    have hset : (Iterator.level node).hasIndexSet F.nodes = true →
        (passEnd F q t).posVar (.indexSet node) = s.posVar (.indexSet node) + 1 := fun hs => by
      have hmem' := (F.isLattice.indexSet_iff q h.mem node).mpr ⟨hmem, hs⟩
      rw [hset, if_pos ⟨hmem', by simp, (h.advances_iff hmem' rfl).mpr hhead⟩]
    rw [hhead.pending_succ (h.wellFormed hmem) hlevel hset]
    exact and_congr_right fun _ => ⟨fun hlt _ _ => hlt, fun hlt => hlt hmem hhead⟩
  · have hnot : ∀ it, it.modeAccess = some node → ¬(it ∈ q.iterators ∧ it ≠ .dimension ∧
        (q.iterators.length = 1 ∨ t.coordVar it = t.coordVar .dimension)) := fun it hnode ⟨hit, _, hadv⟩ =>
      hhead ⟨(compressed_of_mem h.mem hit hnode).2.2, (h.advances_iff hit hnode).mp hadv⟩
    rw [if_neg (hnot _ rfl)] at hlevel hset
    rw [pending_congr hlevel hset]
    exact (and_iff_left fun hmem hk => absurd ⟨hmem, hk⟩ hhead).symm

theorem loopInv_passEnd : LoopInv F (t.coordVar .dimension + 1) (passEnd F q t) where
  le_dimension := h.coord_lt
  start_le it hit hne := by
    rw [h.passEnd_posVar (h.notMem_locators hit)]
    exact (h.inv.start_le it hit hne).trans (Nat.le_add_right _ _)
  pending node hnode k pos hk hpos := h.pending_passEnd.mpr
    ⟨h.inv.pending node hnode k pos (h.le_coord.trans (by omega)) hpos, fun _ _ => by omega⟩
  ahead r hr := by
    by_cases hsub : r.iterators ⊆ q.iterators
    · refine Or.inr fun node k hnode hk => ?_
      obtain ⟨hk, hpassed⟩ := h.pending_passEnd.mp hk
      obtain ⟨k', hk'⟩ := h.head (hsub hnode)
      have hle := hk'.le_of_pending (h.wellFormed (hsub hnode)) hk
      rcases (h.coord_le_head (hsub hnode) hk').lt_or_eq with hlt | heq
      · omega
      · exact hpassed (hsub hnode) (heq ▸ hk')
    · obtain ⟨after, hlattice⟩ := h.lattice
      have hp : ¬Exhausted F p s := fun ⟨node, hnode, hnone⟩ => h.not_exhausted ⟨node, (h.mem_iff _).mpr hnode, hnone⟩
      have hnot : ¬r.iterators ⊆ p.iterators := fun hsubset => hsub fun it hit => (h.mem_iff it).mpr (hsubset hit)
      exact Or.inl ((exhausted_of_not_subset hlattice h.spent hp h.lt_end hr hnot).anti
        fun node k hk => (h.pending_passEnd.mp hk).1)
  dimension hdim := h.passEnd_coordVar (h.dimension_iff.mpr hdim)

theorem stepsLeft_passEnd (hbounds : InBounds F q s) : stepsLeft F (passEnd F q t) < stepsLeft F s := by
  refine stepsLeft_lt (fun it hit _ => ?_) (fun hdim => ?_) ?_
  · rw [h.passEnd_posVar (h.notMem_locators hit)]
    exact Nat.le_add_right _ _
  · have hmem := h.dimension_iff.mpr hdim
    rw [h.passEnd_coordVar hmem, h.ready.dimension hmem]
    omega
  · by_cases hdim : .dimension ∈ q.iterators
    · refine ⟨_, h.dimension_iff.mp hdim, ?_⟩
      have hlt := h.coord_lt
      rw [remaining, remaining, h.passEnd_coordVar hdim, ← h.ready.dimension hdim]
      omega
    · obtain ⟨⟨node, hnode, hhead⟩, -⟩ := h.ready.lowest hdim
      have hmem := Forall.mem_lattice_iterators h.mem hnode
      refine ⟨_, hmem, remaining_lt (by simp) (hbounds _ hnode (by simp)).2 ?_⟩
      rw [h.passEnd_posVar (h.notMem_locators hmem), if_pos ⟨hnode, by simp, (h.advances_iff hnode rfl).mpr hhead⟩]

/-- What the pass emits. -/
theorem trace {loop : MergeLoop V} (hloop : LoopOf F p q loop) : Trace F.visited c (t.coordVar .dimension + 1)
    ((loop.cases.body (declLocatePosVars F.nodes q.locators t)).toList.map fun body =>
      (t.coordVar .dimension, body.eval ((declLocatePosVars F.nodes q.locators t).read F.nodes))) := by
  have hbody := h.body_eq hloop
  cases hcase : loop.cases.body (declLocatePosVars F.nodes q.locators t) with
  | none =>
    rw [hcase, Option.map_none] at hbody
    refine Trace.nil fun k hk hlt => ?_
    rcases (Int.lt_add_one_iff.mp hlt).lt_or_eq with hlt | rfl
    · exact h.visited_eq_none hk hlt
    · exact hbody.symm
  | some body =>
    rw [hcase, Option.map_some] at hbody
    exact Trace.single hbody.symm h.le_coord fun k hk hlt => h.visited_eq_none hk hlt

end Pass

/-! ### The condition -/

/-- Nothing is left of an access that has an iterator at its end. -/
theorem not_pending_of_stop_le (hq : q ∈ F.lattice) {it : Iterator} (hit : it ∈ q.iterators) {node : ℕ}
    (hnode : it.modeAccess = some node) (hstop : (it.positions F.nodes).2 ≤ s.posVar it) (k : ℤ) : ¬Pending F.nodes s node k := by
  rintro ⟨pos, hpos, hle, hset⟩
  cases it with
  | dimension => cases hnode
  | level node' =>
    obtain rfl := Option.some.inj hnode
    cases hn : F.nodes node' with
    | scalar val | dense level modifier vals => rw [hn] at hpos; cases hpos
    | compressed level getParent modifier vals =>
      rw [hn] at hpos
      rw [Iterator.positions, hn] at hstop
      have hlt := hpos.1.2
      omega
  | indexSet node' =>
    obtain rfl := Option.some.inj hnode
    have hmem := ((F.isLattice.indexSet_iff q hq _).mp hit).2
    have hle' := hset hmem
    cases hn : F.nodes node' with
    | scalar val | dense level modifier vals => rw [hn] at hpos; cases hpos
    | compressed level getParent modifier vals =>
      rw [hn] at hpos
      cases modifier with
      | unmodified | accessWindow window => simp [Iterator.hasIndexSet, hn, AccessNode.modifier] at hmem
      | indexSet set =>
        have hlt : k < set.size := hpos.2.2.2
        have hsize : set.size ≤ s.posVar (.indexSet node') := by
          simpa [Iterator.positions, hn, AccessNode.modifier] using hstop
        omega

theorem rangers_of_dimension (hq : q ∈ F.lattice) (hall : ∀ it ∈ q.iterators, it = .dimension) :
    q.rangers F.nodes = [.dimension] := by
  have hmem : ∀ it, it ∈ q.rangers F.nodes ↔ it ∈ q.iterators := fun it =>
    (mem_rangers hq).trans (and_iff_left fun _ => hall)
  have hiterators : q.iterators = [.dimension] := by
    obtain ⟨it, hit⟩ := List.exists_mem_of_ne_nil _ (F.isLattice.iterators_ne_nil q hq)
    refine List.perm_singleton.mp ((List.perm_ext_iff_of_nodup (F.isLattice.nodup q hq) (List.nodup_singleton _)).mpr fun it' => ?_)
    rw [List.mem_singleton]
    exact ⟨fun h => hall it' h, fun h => h ▸ hall it hit ▸ hit⟩
  rw [MergePoint.rangers, hiterators]
  rfl

theorem not_single_full (hq : q ∈ F.lattice) (hall : ¬∀ it ∈ q.iterators, it = .dimension) :
    ¬((q.rangers F.nodes).length = 1 ∧ (q.rangers F.nodes).all (fun it => it.isFull F.nodes) = true) := by
  rintro ⟨-, hfull⟩
  push Not at hall
  obtain ⟨it, hit, hne⟩ := hall
  have hranger := (mem_rangers hq).mpr ⟨hit, fun h => absurd h hne⟩
  exact hne ((isFull_iff hq hit).mp (List.all_eq_true.mp hfull it hranger))

/-- Before a pass all iterators are in their bounds. -/
theorem inBounds_of_cond (hq : q ∈ F.lattice) (hinv : LoopInv F c s)
    (hcond : checkThatNoneAreExhausted F.nodes F.dimension (q.rangers F.nodes) s = true) :
    InBounds F q s ∧ ((∀ it ∈ q.iterators, it = .dimension) → c < F.dimension) := by
  rw [checkThatNoneAreExhausted] at hcond
  by_cases hall : ∀ it ∈ q.iterators, it = .dimension
  · rw [rangers_of_dimension hq hall, if_pos ⟨rfl, rfl⟩, decide_eq_true_eq] at hcond
    refine ⟨fun it hit hne => absurd (hall it hit) hne, fun _ => ?_⟩
    obtain ⟨it, hit⟩ := List.exists_mem_of_ne_nil _ (F.isLattice.iterators_ne_nil q hq)
    rwa [hinv.dimension (Forall.mem_lattice_iterators hq (hall it hit ▸ hit))] at hcond
  · rw [if_neg (not_single_full hq hall), List.all_eq_true] at hcond
    refine ⟨fun it hit hne => ⟨hinv.start_le it (Forall.mem_lattice_iterators hq hit) hne, ?_⟩, fun h => absurd h hall⟩
    exact of_decide_eq_true (hcond it ((mem_rangers hq).mpr ⟨hit, fun h => absurd h hne⟩))

/-- The loop ends when nothing is left of an operand, or at the end of the dimension. -/
theorem spent_of_not_cond (hq : q ∈ F.lattice) (hinv : LoopInv F c s)
    (hcond : checkThatNoneAreExhausted F.nodes F.dimension (q.rangers F.nodes) s = false) : Spent F q c s := by
  rw [checkThatNoneAreExhausted] at hcond
  by_cases hall : ∀ it ∈ q.iterators, it = .dimension
  · rw [rangers_of_dimension hq hall, if_pos ⟨rfl, rfl⟩, decide_eq_false_iff_not, not_lt] at hcond
    obtain ⟨it, hit⟩ := List.exists_mem_of_ne_nil _ (F.isLattice.iterators_ne_nil q hq)
    rw [hinv.dimension (Forall.mem_lattice_iterators hq (hall it hit ▸ hit))] at hcond
    exact Or.inl hcond
  · rw [if_neg (not_single_full hq hall), List.all_eq_false] at hcond
    obtain ⟨it, hit, hstop⟩ := hcond
    obtain ⟨hit, hdim⟩ := (mem_rangers hq).mp hit
    rw [decide_eq_true_eq, not_lt] at hstop
    cases hnode : it.modeAccess with
    | none =>
      cases it with
      | dimension => exact absurd (hdim rfl) hall
      | level node | indexSet node => cases hnode
    | some node =>
      exact Or.inr ⟨node, (compressed_of_mem hq hit hnode).2.2, not_pending_of_stop_le hq hit hnode hstop⟩

/-! ### One loop -/

/-- Where a loop stops, from coordinates that are visited up to `c`. -/
def StopsAt (F : Forall V) (points : MergeLattice) (c : ℤ) (out : List (ℤ × V)) (t : State) : Prop :=
  ∃ c', c ≤ c' ∧ LoopInv F c' t ∧ Trace F.visited c c' out ∧ ∀ r ∈ points, Spent F r c' t

theorem loop_stopsAt (hlattice : F.lattice = before ++ p :: after) {loop : MergeLoop V} (hloop : LoopOf F p q loop)
    (hinv : LoopInv F c s) (hspent : ∀ r ∈ before, Spent F r c s) :
    ∃ out t, (loop.toWhile F.nodes F.dimension).Yields s out t ∧ StopsAt F (before ++ [p]) c out t := by
  have hq := hloop.mem
  have hspentAll : ∀ {c : ℤ} {t : State}, (∀ r ∈ before, Spent F r c t) → Spent F q c t →
      ∀ r ∈ before ++ [p], Spent F r c t := by
    intro c t hbefore hq r hr
    rcases List.mem_append.mp hr with hr | hr
    · exact hbefore r hr
    · obtain rfl := List.mem_singleton.mp hr
      exact hq.imp id fun ⟨node, hnode, hnone⟩ => ⟨node, (hloop.mem_iff _).mp hnode, hnone⟩
  have hyields := While.exists_yields (loop.toWhile F.nodes F.dimension) (stepsLeft F)
    (fun s => ∃ c, LoopInv F c s ∧ ∀ r ∈ before, Spent F r c s)
    (fun s out t => ∀ c, LoopInv F c s → (∀ r ∈ before, Spent F r c s) → StopsAt F (before ++ [p]) c out t)
    ?_ ?_ ?_ ?_ s ⟨c, hinv, hspent⟩
  · obtain ⟨out, t, hyields, hstops⟩ := hyields
    exact ⟨out, t, hyields, hstops c hinv hspent⟩
  · -- The condition does not hold.
    intro s _ hcond c hinv hspent
    have hcond : checkThatNoneAreExhausted F.nodes F.dimension (q.rangers F.nodes) s = false := hloop.rangers ▸ hcond
    exact ⟨c, le_rfl, hinv, Trace.nil fun k hk hlt => by omega, hspentAll hspent (spent_of_not_cond hq hinv hcond)⟩
  · -- A window has ended.
    rintro s t - hcond hbody c hinv hspent
    have hcond : checkThatNoneAreExhausted F.nodes F.dimension (q.rangers F.nodes) s = true := hloop.rangers ▸ hcond
    have hjump := passHead_spec hq (inBounds_of_cond hq hinv hcond).1
    have hbody : loop.pass F.nodes s = .error (.breakLoop, t) := hbody
    rw [pass_eq hloop] at hbody
    cases hhead : passHead F q s with
    | ok t' => rw [hhead] at hbody; cases hbody
    | error e =>
      rw [hhead] at hbody hjump
      obtain rfl := Except.error.inj hbody
      have hpending := fun node k => (hjump.pending_iff node k).mp
      refine ⟨c, le_rfl, hinv.of_jumpsTo hq hjump, Trace.nil fun k hk hlt => by omega, hspentAll
        (fun r hr => (hspent r hr).anti le_rfl hpending) (Or.inr ?_)⟩
      obtain ⟨node, hnode, hnone⟩ := hjump.2.2
      exact ⟨node, hnode, fun k hk => hnone k (hpending node k hk)⟩
  · rintro s t ⟨c₀, hinv₀, hspent₀⟩ hcond hbody
    have hcond : checkThatNoneAreExhausted F.nodes F.dimension (q.rangers F.nodes) s = true := hloop.rangers ▸ hcond
    have hjump := passHead_spec hq (inBounds_of_cond hq hinv₀ hcond).1
    have hbody : loop.pass F.nodes s = .error (.continueLoop, t) := hbody
    rw [pass_eq hloop] at hbody
    cases hhead : passHead F q s with
    | ok t' => rw [hhead] at hbody; cases hbody
    | error e =>
      rw [hhead] at hbody hjump
      obtain rfl := Except.error.inj hbody
      have hpending := fun node k => (hjump.pending_iff node k).mp
      refine ⟨⟨c₀, hinv₀.of_jumpsTo hq hjump, fun r hr => (hspent₀ r hr).anti le_rfl hpending⟩,
        stepsLeft_lt_of_jumpsTo hq hjump, fun out u hstops c hinv hspent => ?_⟩
      exact hstops c (hinv.of_jumpsTo hq hjump) fun r hr => (hspent r hr).anti le_rfl hpending
  · rintro s t out ⟨c₀, hinv₀, hspent₀⟩ hcond hbody
    have hcond : checkThatNoneAreExhausted F.nodes F.dimension (q.rangers F.nodes) s = true := hloop.rangers ▸ hcond
    have hbounds := (inBounds_of_cond hq hinv₀ hcond).1
    have hready := passHead_spec hq hbounds
    have hbody : loop.pass F.nodes s = .ok (t, out) := hbody
    rw [pass_eq hloop] at hbody
    cases hhead : passHead F q s with
    | error e => rw [hhead] at hbody; cases hbody
    | ok t' =>
      rw [hhead] at hbody hready
      obtain ⟨rfl, rfl⟩ := Prod.mk.inj (Except.ok.inj hbody)
      have hpass : ∀ c, LoopInv F c s → (∀ r ∈ before, Spent F r c s) → Pass F before p q c s t' :=
        fun c hinv hspent => ⟨⟨after, hlattice⟩, hq, hloop.mem_iff, hinv, hspent, hready, (inBounds_of_cond hq hinv hcond).2⟩
      have hspentEnd : ∀ c, LoopInv F c s → (∀ r ∈ before, Spent F r c s) →
          ∀ r ∈ before, Spent F r (t'.coordVar .dimension + 1) (passEnd F q t') := fun c hinv hspent r hr =>
        (hspent r hr).anti ((hpass c hinv hspent).le_coord.trans (by omega)) fun node k hk =>
          ((hpass c hinv hspent).pending_passEnd.mp hk).1
      refine ⟨⟨_, (hpass c₀ hinv₀ hspent₀).loopInv_passEnd, hspentEnd c₀ hinv₀ hspent₀⟩,
        (hpass c₀ hinv₀ hspent₀).stepsLeft_passEnd hbounds, fun rest u hstops c hinv hspent => ?_⟩
      obtain ⟨c', hle, hinv', htrace, hspent'⟩ := hstops _ (hpass c hinv hspent).loopInv_passEnd (hspentEnd c hinv hspent)
      have hle' : c ≤ t'.coordVar .dimension + 1 := (hpass c hinv hspent).le_coord.trans (by omega)
      exact ⟨c', hle'.trans hle, hinv', ((hpass c hinv hspent).trace hloop).append htrace hle' hle, hspent'⟩

/-! ### All loops -/

theorem loops_stopsAt {points : MergeLattice} {loops : List (MergeLoop V)}
    (hloops : List.Forall₂ (fun p loop => ∃ q, LoopOf F p q loop) points loops) {before : MergeLattice} {s : State} {c : ℤ}
    (hlattice : F.lattice = before ++ points) (hinv : LoopInv F c s) (hspent : ∀ r ∈ before, Spent F r c s) :
    ∃ out t, YieldsAll (loops.map fun loop => loop.toWhile F.nodes F.dimension) s out t ∧ StopsAt F F.lattice c out t := by
  induction hloops generalizing before s c with
  | nil =>
    rw [List.append_nil] at hlattice
    exact ⟨[], s, yieldsAll_nil s, c, le_rfl, hinv, Trace.nil fun k hk hlt => by omega, hlattice ▸ hspent⟩
  | @cons p loop points loops hloop _ ih =>
    obtain ⟨q, hloop⟩ := hloop
    obtain ⟨out, t, hyields, c', hle, hinv', htrace, hspent'⟩ := loop_stopsAt hlattice hloop hinv hspent
    obtain ⟨rest, u, hrest, c'', hle', hinv'', htrace', hspent''⟩ :=
      ih (show F.lattice = (before ++ [p]) ++ points by rw [hlattice, List.append_assoc, List.singleton_append]) hinv' hspent'
    exact ⟨out ++ rest, u, YieldsAll.cons hyields hrest, c'', hle.trans hle', hinv'', htrace.append htrace' hle hle', hspent''⟩

/-- When the loops of all points have ended nothing is left to visit. -/
theorem StopsAt.trace {out : List (ℤ × V)} (h : StopsAt F F.lattice c out t) : Trace F.visited c F.dimension out := by
  obtain ⟨c', hle, hinv, htrace, hspent⟩ := h
  have hrest : Trace F.visited c' F.dimension [] := by
    refine Trace.nil fun k hk hlt => Forall.visited_of_find?_eq_none (List.find?_eq_none.mpr fun r hr hfits => ?_)
    rcases hspent r hr with hend | ⟨node, hnode, hnone⟩
    · omega
    · obtain ⟨pos, hpos⟩ := Forall.hereAt_iff.mp (MergePoint.fits_iff.mp hfits _ hnode)
      exact hnone k (hinv.pending node (F.isLattice.accesses r hr _ hnode node rfl) k pos hk hpos)
  have hall := htrace.append hrest hle hinv.le_dimension
  rwa [List.append_nil] at hall

/-! ### Initialization -/

omit [Ring V] in
theorem foldl_codeToInitializeIteratorVar (nodes : ℕ → AccessNode V) (it : Iterator) : ∀ (iterators : List Iterator) (s : State),
    ((iterators.foldl (codeToInitializeIteratorVar nodes) s).posVar it =
        if it ∈ iterators ∧ it.hasPosIter nodes = true then (it.positions nodes).1 else s.posVar it) ∧
      (iterators.foldl (codeToInitializeIteratorVar nodes) s).coordVar .dimension =
        if .dimension ∈ iterators then 0 else s.coordVar .dimension
  | [], _ => by simp
  | it' :: iterators, s => by
    obtain ⟨hpos, hcoord⟩ := foldl_codeToInitializeIteratorVar nodes it iterators (codeToInitializeIteratorVar nodes s it')
    rw [List.foldl_cons, hpos, hcoord, codeToInitializeIteratorVar]
    have hdim : Iterator.hasPosIter nodes .dimension = false := rfl
    constructor
    · by_cases hmem : it ∈ iterators <;> by_cases hsame : it = it' <;> by_cases hiter : it'.hasPosIter nodes = true <;>
        simp_all
    · by_cases hmem : .dimension ∈ iterators <;> by_cases hsame : Iterator.dimension = it' <;>
        by_cases hiter : it'.hasPosIter nodes = true <;> simp_all

/-- The variables of all iterators are initialized. -/
theorem codeToInitializeIteratorVars_spec (hq : q ∈ F.lattice) (s : State) :
    (∀ it ∈ q.iterators, it ≠ .dimension →
      (codeToInitializeIteratorVars F.nodes (q.rangers F.nodes) (q.mergers F.nodes) s).posVar it = (it.positions F.nodes).1) ∧
    (.dimension ∈ q.iterators →
      (codeToInitializeIteratorVars F.nodes (q.rangers F.nodes) (q.mergers F.nodes) s).coordVar .dimension = 0) := by
  rw [codeToInitializeIteratorVars]
  constructor
  · intro it hit hne
    have hiter : it.hasPosIter F.nodes = true := by simp [(F.isLattice.merged q hq it hit).hasPosIter, hne]
    have hranger : it ∈ q.rangers F.nodes := (mem_rangers hq).mpr ⟨hit, fun h => absurd h hne⟩
    rw [(foldl_codeToInitializeIteratorVar F.nodes it _ _).1, (foldl_codeToInitializeIteratorVar F.nodes it _ _).1]
    by_cases hmerger : it ∈ q.mergers F.nodes <;> simp [hiter, hranger, hmerger]
  · intro hdim
    rw [(foldl_codeToInitializeIteratorVar F.nodes .dimension _ _).2, (foldl_codeToInitializeIteratorVar F.nodes .dimension _ _).2,
      mergers_of_dimension hq hdim]
    simp

/-- The loops end, and they visit in order the coordinates at which something is left of the expression, if the operands
    store nothing before the first of these. -/
theorem runMergeLattice_trace (F : Forall V) (c : ℤ) (hle : c ≤ F.dimension)
    (hfirst : ∀ node ∈ F.expr.accesses, ∀ k pos, (F.nodes node).Stores k pos → c ≤ k)
    (hdim : .dimension ∈ F.lattice.iterators → c = 0) (s : State) :
    ∃ out t, (∃ bound, ∀ fuel, bound ≤ fuel → F.runMergeLattice fuel s = some (out, t)) ∧
      Trace F.visited c F.dimension out := by
  have hF := F.isLattice
  obtain ⟨first, rest, hcons⟩ := List.exists_cons_of_ne_nil hF.ne_nil
  have hmem : first ∈ F.lattice := hcons ▸ List.mem_cons_self
  have hiterators : F.lattice.iterators = first.iterators := by rw [hcons, iterators_cons]
  obtain ⟨hpos, hcoord⟩ := codeToInitializeIteratorVars_spec hmem s
  obtain ⟨loops, hlower, hloops⟩ := Forall.lowerMergeLattice_loopOf F
  have hinv : LoopInv F c (codeToInitializeIteratorVars F.nodes (first.rangers F.nodes) (first.mergers F.nodes) s) := by
    have hpending : ∀ node ∈ F.expr.accesses, ∀ k pos, (F.nodes node).Stores k pos → Pending F.nodes
        (codeToInitializeIteratorVars F.nodes (first.rangers F.nodes) (first.mergers F.nodes) s) node k := by
      intro node hnode k pos hstores
      have hlevel : .level node ∈ first.iterators := hiterators ▸ hF.covers node hnode hstores.isCompressed
      refine ⟨pos, hstores, ?_, fun hset => ?_⟩
      · rw [hpos _ hlevel (by simp)]
        cases hn : F.nodes node with
        | scalar val | dense level modifier vals => rw [hn] at hstores; cases hstores
        | compressed level getParent modifier vals =>
          rw [hn] at hstores
          rw [Iterator.positions, hn]
          exact hstores.1.1
      · rw [hpos _ ((hF.indexSet_iff first hmem node).mpr ⟨hlevel, hset⟩) (by simp)]
        cases hn : F.nodes node with
        | scalar val | dense level modifier vals => rw [hn] at hstores; cases hstores
        | compressed level getParent modifier vals =>
          rw [hn] at hstores
          cases modifier with
          | unmodified | accessWindow window => simp [Iterator.hasIndexSet, hn, AccessNode.modifier] at hset
          | indexSet set =>
            rw [Iterator.positions, hn]
            exact hstores.2.2.1
    refine ⟨hle, fun it hit hne => (hpos it (hiterators ▸ hit) hne).ge, fun node hnode k pos _ => hpending node hnode k pos,
      fun r hr => Or.inr fun node k hnode hk => ?_, fun hmem => ?_⟩
    · obtain ⟨pos, hstores⟩ := hk.stores
      exact hfirst node (hF.accesses r hr _ hnode node rfl) k pos hstores
    · rw [hcoord (hiterators ▸ hmem), hdim hmem]
  obtain ⟨out, t, ⟨bound, hbound⟩, hstops⟩ := loops_stopsAt hloops (List.nil_append _).symm hinv (by simp)
  refine ⟨out, t, ⟨bound, fun fuel hfuel => ?_⟩, hstops.trace⟩
  rw [Forall.runMergeLattice, hlower, hcons]
  exact hbound fuel hfuel

end Lower
end Taco
