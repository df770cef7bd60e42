import Taco.Lower.MergeLoopInvariant

/-! The body that a pass executes has the value of the expression at the coordinate of the pass. -/

namespace Taco
namespace Lower

open Forall (BodyOf ClauseOf LoopOf)

theorem forall₂_find? {α β : Type} {R : α → β → Prop} {P : α → Bool} {Q : β → Bool} {l : List α} {l' : List β}
    (h : List.Forall₂ R l l') (hPQ : ∀ a ∈ l, ∀ b, R a b → Q b = P a) : (l.find? P = none ∧ l'.find? Q = none) ∨
      ∃ a b, l.find? P = some a ∧ l'.find? Q = some b ∧ R a b := by
  induction h with
  | nil => exact Or.inl ⟨rfl, rfl⟩
  | @cons a b l l' hab _ ih =>
    have hQ := hPQ a List.mem_cons_self b hab
    cases hP : P a with
    | true => exact Or.inr ⟨a, b, List.find?_cons_of_pos hP, List.find?_cons_of_pos (hQ.trans hP), hab⟩
    | false =>
      rw [List.find?_cons_of_neg (by simp [hP]), List.find?_cons_of_neg (by simp [hQ, hP])]
      exact ih fun a' ha' => hPQ a' (List.mem_cons_of_mem a ha')

variable {V : Type} [Ring V] {F : Forall V} {p q r : MergePoint} {s t : State} {c : ℤ}

/-! ### The coordinate of a pass -/

/-- A pass that loads all iterators of its point. -/
structure Pass (F : Forall V) (before : MergeLattice) (p q : MergePoint) (c : ℤ) (s t : State) : Prop where
  lattice : ∃ after, F.lattice = before ++ p :: after
  mem : q ∈ F.lattice
  mem_iff : ∀ it, it ∈ q.iterators ↔ it ∈ p.iterators
  inv : LoopInv F c s
  spent : ∀ r ∈ before, Spent F r c s
  ready : Ready F q s t
  lt_dimension : (∀ it ∈ q.iterators, it = .dimension) → c < F.dimension

namespace Pass

variable {before : MergeLattice} (h : Pass F before p q c s t)

include h

omit [Ring V] in
theorem head {node : ℕ} (hnode : .level node ∈ q.iterators) : ∃ k, AtHead F.nodes s node k := by
  obtain ⟨k, hk, -⟩ := h.ready.head _ hnode node rfl
  exact ⟨k, hk⟩

omit [Ring V] in
theorem not_exhausted : ¬Exhausted F q s := by
  rintro ⟨node, hnode, hnone⟩
  obtain ⟨k, hk⟩ := h.head hnode
  exact hnone k hk.pending

omit [Ring V] in
theorem le_of_pending {node : ℕ} {k : ℤ} (hnode : .level node ∈ q.iterators) (hk : Pending F.nodes s node k) : c ≤ k :=
  (h.inv.ahead q h.mem).resolve_left h.not_exhausted node k hnode hk

theorem wellFormed {node : ℕ} (hnode : .level node ∈ q.iterators) : (F.nodes node).WellFormed F.dimension :=
  (compressed_of_mem h.mem hnode rfl).2.1

theorem dimension_iff : .dimension ∈ q.iterators ↔ .dimension ∈ F.lattice.iterators := F.isLattice.dimension_iff q h.mem

theorem coord_eq (hdim : .dimension ∈ q.iterators) : t.coordVar .dimension = c :=
  (h.ready.dimension hdim).trans (h.inv.dimension (h.dimension_iff.mp hdim))

theorem coord_le_head {node : ℕ} {k : ℤ} (hnode : .level node ∈ q.iterators) (hk : AtHead F.nodes s node k) :
    t.coordVar .dimension ≤ k := by
  by_cases hdim : .dimension ∈ q.iterators
  · rw [h.coord_eq hdim]
    exact h.le_of_pending hnode hk.pending
  · exact (h.ready.lowest hdim).2 node k hnode hk

theorem le_coord : c ≤ t.coordVar .dimension := by
  by_cases hdim : .dimension ∈ q.iterators
  · exact (h.coord_eq hdim).ge
  · obtain ⟨⟨node, hnode, hk⟩, -⟩ := h.ready.lowest hdim
    exact h.le_of_pending hnode hk.pending

theorem coord_lt : t.coordVar .dimension < F.dimension := by
  by_cases hall : ∀ it ∈ q.iterators, it = .dimension
  · obtain ⟨it, hit⟩ := List.exists_mem_of_ne_nil _ (F.isLattice.iterators_ne_nil q h.mem)
    rw [h.coord_eq (hall it hit ▸ hit)]
    exact h.lt_dimension hall
  · push Not at hall
    obtain ⟨it, hit, hne⟩ := hall
    cases hnode : it.modeAccess with
    | none => cases it <;> simp_all [Iterator.modeAccess]
    | some node =>
      have hlevel := (compressed_of_mem h.mem hit hnode).2.2
      obtain ⟨k, hk⟩ := h.head hlevel
      exact (h.coord_le_head hlevel hk).trans_lt (hk.1.lt_dimension (h.wellFormed hlevel))

theorem lt_end : c < F.dimension := h.le_coord.trans_lt h.coord_lt

/-- The iterators at the coordinate are those of the accesses that store it. -/
theorem atHead_iff {node : ℕ} (hnode : .level node ∈ q.iterators) :
    AtHead F.nodes s node (t.coordVar .dimension) ↔ F.hereAt (t.coordVar .dimension) node = true := by
  rw [Forall.hereAt_iff]
  refine ⟨fun hk => ⟨_, hk.1⟩, ?_⟩
  rintro ⟨pos, hpos⟩
  obtain ⟨k, hk⟩ := h.head hnode
  have hmem := F.isLattice.accesses q h.mem _ hnode node rfl
  have hpending := h.inv.pending node hmem _ pos h.le_coord hpos
  have hsame : k = t.coordVar .dimension :=
    le_antisymm (hk.le_of_pending (h.wellFormed hnode) hpending) (h.coord_le_head hnode hk)
  exact hsame ▸ hk

omit [Ring V] in
theorem mem_p : p ∈ F.lattice := by
  obtain ⟨after, hlattice⟩ := h.lattice
  rw [hlattice]
  simp

/-- The points whose accesses all store a coordinate that is not passed are below the point of the loop. -/
theorem subset_of_fits {k : ℤ} (hk : c ≤ k) (hr : r ∈ F.lattice) (hfits : r.fits (F.hereAt k) = true) :
    r.iterators ⊆ q.iterators := by
  obtain ⟨after, hlattice⟩ := h.lattice
  have hp : ¬Exhausted F p s := fun ⟨node, hnode, hnone⟩ => h.not_exhausted ⟨node, (h.mem_iff _).mpr hnode, hnone⟩
  by_contra hnot
  have hnot : ¬r.iterators ⊆ p.iterators := fun hsub => hnot fun it hit => (h.mem_iff it).mpr (hsub hit)
  obtain ⟨node, hnode, hnone⟩ := exhausted_of_not_subset hlattice h.spent hp h.lt_end hr hnot
  obtain ⟨pos, hpos⟩ := Forall.hereAt_iff.mp (MergePoint.fits_iff.mp hfits _ hnode)
  exact hnone k (h.inv.pending node (F.isLattice.accesses r hr _ hnode node rfl) k pos hk hpos)

/-- Nothing is passed over. -/
theorem visited_eq_none {k : ℤ} (hk : c ≤ k) (hlt : k < t.coordVar .dimension) : F.visited k = none := by
  rw [Forall.visited, if_neg]
  intro hdefined
  obtain ⟨r, hr, hfits⟩ := (F.isLattice.defined_iff _).mpr hdefined
  have hsub := h.subset_of_fits hk hr hfits
  have hdim : .dimension ∉ q.iterators := fun hdim => by
    rw [h.coord_eq hdim] at hlt
    exact absurd hk (not_le.mpr hlt)
  obtain ⟨it, hit⟩ := List.exists_mem_of_ne_nil _ (F.isLattice.iterators_ne_nil r hr)
  cases hnode : it.modeAccess with
  | none =>
    cases it with
    | dimension => exact hdim (hsub hit)
    | level node | indexSet node => cases hnode
  | some node =>
    have hlevel := (compressed_of_mem hr hit hnode).2.2
    obtain ⟨pos, hpos⟩ := Forall.hereAt_iff.mp (MergePoint.fits_iff.mp hfits _ hlevel)
    have hpending := h.inv.pending node (F.isLattice.accesses r hr _ hlevel node rfl) k pos hk hpos
    obtain ⟨k', hk'⟩ := h.head (hsub hlevel)
    have hle := hk'.le_of_pending (h.wellFormed (hsub hlevel)) hpending
    exact absurd ((h.coord_le_head (hsub hlevel) hk').trans hle) (not_le.mpr hlt)

theorem find?_subLattice : (F.lattice.subLattice p).find? (MergePoint.fits (F.hereAt (t.coordVar .dimension))) =
    F.lattice.find? (MergePoint.fits (F.hereAt (t.coordVar .dimension))) := by
  rw [Forall.subLattice_eq h.mem_p, List.find?_filter]
  refine List.find?_congr fun r hr => ?_
  cases hfits : r.fits (F.hereAt (t.coordVar .dimension)) with
  | false => simp
  | true =>
    have hsub := h.subset_of_fits h.le_coord hr hfits
    have hkeeps := (Forall.fits_keeps_iff h.mem_p hr).mpr fun it hit => (h.mem_iff it).mp (hsub hit)
    simp [hkeeps]

/-! ### Bodies -/

/-- What a body reads at a point whose accesses store the coordinate. -/
theorem eval_eq {body : IndexExpr V} (hsub : r.iterators ⊆ q.iterators)
    (hfits : r.fits (F.hereAt (t.coordVar .dimension)) = true) (hbody : BodyOf F r body) :
    body.eval ((declLocatePosVars F.nodes q.locators t).read F.nodes) =
      F.expr.eval (restrict F.nodes r.keeps fun node => (F.nodes node).component (t.coordVar .dimension)) := by
  rw [← hbody.eval]
  refine IndexExpr.eval_congr fun node hnode => ?_
  have hlive := hbody.live node hnode
  have hF := F.isLattice
  have hnotLocator : (F.nodes node).isDense = false → .level node ∉ q.locators := fun hnot hmem => by
    obtain ⟨node', -, hdense, heq⟩ := hF.locators q h.mem _ hmem
    rw [Iterator.level.inj heq, hdense] at hnot
    cases hnot
  rw [State.read]
  cases hkind : F.nodes node with
  | scalar val => rfl
  | dense level modifier vals =>
    have hdense : (F.nodes node).isDense = true := by rw [hkind]; rfl
    have hkeeps : ∀ a ∈ F.expr.accesses, held F.nodes r.keeps a → held F.nodes q.keeps a := fun a _ ha hc =>
      MergePoint.keeps_iff.mpr (hsub (MergePoint.keeps_iff.mp (ha hc)))
    have hlocator := hF.located q h.mem node hdense (hlive.mono hkeeps)
    rw [declLocatePosVars_posVar_of_mem hlocator, locate, hkind]
    cases modifier <;> rfl
  | compressed level getParent modifier vals =>
    have hc : (F.nodes node).isCompressed = true := by rw [hkind]; rfl
    have hmem := MergePoint.keeps_iff.mp (hlive.of_present hc)
    have hhead := (h.atHead_iff (hsub hmem)).mpr (MergePoint.fits_iff.mp hfits _ hmem)
    rw [declLocatePosVars_posVar_of_notMem (hnotLocator (by rw [hkind]; rfl)), h.ready.posVar, ← hkind]
    exact (hhead.1.component_eq (h.wellFormed (hsub hmem))).symm

/-- The clause of a point below the point of the loop matches where the accesses of the point store the coordinate. -/
theorem clause_iff (hlength : q.iterators.length ≠ 1) (hr : r ∈ F.lattice) (hsub : r.iterators ⊆ q.iterators) :
    (r.rangers F.nodes).all (fun it => t.coordVar it = t.coordVar .dimension) = true ↔
      r.fits (F.hereAt (t.coordVar .dimension)) = true := by
  rw [List.all_eq_true, MergePoint.fits_iff]
  have hcoord : ∀ it ∈ q.iterators, ∀ node, it.modeAccess = some node →
      (t.coordVar it = t.coordVar .dimension ↔ F.hereAt (t.coordVar .dimension) node = true) := by
    intro it hit node hnode
    obtain ⟨k, hk, hload⟩ := h.ready.head it hit node hnode
    have hlevel := (compressed_of_mem h.mem hit hnode).2.2
    rw [hload hlength, ← h.atHead_iff hlevel]
    exact ⟨fun heq => heq ▸ hk, fun hhead => hk.unique (h.wellFormed hlevel) hhead⟩
  constructor
  · intro hall it hit
    cases hnode : it.modeAccess with
    | none => cases it <;> simp_all [Iterator.modeAccess]
    | some node =>
      have hranger : it ∈ r.rangers F.nodes := (mem_rangers hr).mpr ⟨hit, fun h => by simp [h, Iterator.modeAccess] at hnode⟩
      simpa [Iterator.present, hnode] using (hcoord it (hsub hit) node hnode).mp (of_decide_eq_true (hall it hranger))
  · intro hfits it hit
    have hit := ((mem_rangers hr).mp hit).1
    rw [decide_eq_true_eq]
    cases hnode : it.modeAccess with
    | none => cases it <;> simp_all [Iterator.modeAccess]
    | some node =>
      exact (hcoord it (hsub hit) node hnode).mpr (by simpa [Iterator.present, hnode] using hfits it hit)

/-- Of the points of an exact lattice the accesses of one store the coordinate. -/
theorem exists_fits_of_exact (hexact : (F.lattice.subLattice p).exact F.nodes = true) :
    ∃ r ∈ F.lattice.subLattice p, r.fits (F.hereAt (t.coordVar .dimension)) = true := by
  have hF := F.isLattice
  rw [MergeLattice.exact, Bool.or_eq_true, List.any_eq_true, List.all_eq_true] at hexact
  rcases hexact with ⟨r, hr, hfull⟩ | hall
  · refine ⟨r, hr, MergePoint.fits_iff.mpr fun it hit => ?_⟩
    rw [(isFull_iff ((Forall.mem_subLattice h.mem_p).mp hr).1 hit).mp (List.all_eq_true.mp hfull it hit)]
    rfl
  · obtain ⟨q', rest, hsub, -, hmem⟩ := Forall.subLattice_head h.mem_p
    have hsingle : ∀ it ∈ q.iterators, ∃ r ∈ F.lattice.subLattice p, r.iterators = [it] := by
      intro it hit
      have hit' : it ∈ (F.lattice.subLattice p).iterators := by
        rw [hsub]
        exact (hmem it).mpr ((h.mem_iff it).mp hit)
      obtain ⟨r, hr, heq⟩ := List.any_eq_true.mp (hall it hit')
      exact ⟨r, hr, by simpa using heq⟩
    by_cases hdim : .dimension ∈ q.iterators
    · obtain ⟨r, hr, heq⟩ := hsingle _ hdim
      exact ⟨r, hr, MergePoint.fits_iff.mpr (by rw [heq]; simp)⟩
    · obtain ⟨⟨node, hnode, hhead⟩, -⟩ := h.ready.lowest hdim
      obtain ⟨r, hr, heq⟩ := hsingle _ hnode
      refine ⟨r, hr, MergePoint.fits_iff.mpr ?_⟩
      rw [heq, List.forall_mem_singleton]
      exact (h.atHead_iff hnode).mp hhead

theorem fits_of_length (hlength : q.iterators.length = 1) : q.fits (F.hereAt (t.coordVar .dimension)) = true := by
  obtain ⟨it, hsingle⟩ := List.length_eq_one_iff.mp hlength
  rw [MergePoint.fits_iff, hsingle, List.forall_mem_singleton]
  by_cases hdim : .dimension ∈ q.iterators
  · rw [hsingle, List.mem_singleton] at hdim
    rw [← hdim]
    rfl
  · obtain ⟨⟨node, hnode, hhead⟩, -⟩ := h.ready.lowest hdim
    have hhere := (h.atHead_iff hnode).mp hhead
    rw [hsingle, List.mem_singleton] at hnode
    rw [← hnode]
    exact hhere

/-- The body of a pass has the value of the expression at the coordinate, if something is left of it. -/
theorem body_eq {loop : MergeLoop V} (hloop : LoopOf F p q loop) :
    (loop.cases.body (declLocatePosVars F.nodes q.locators t)).map
        (fun body => body.eval ((declLocatePosVars F.nodes q.locators t).read F.nodes)) =
      F.visited (t.coordVar .dimension) := by
  have hF := F.isLattice
  rcases hloop.cases with ⟨hlength, body, hcases, hbody⟩ | ⟨hlength, clauses, hcases, hclauses⟩
  · have hfits := h.fits_of_length hlength
    rw [hcases, MergeCases.body, Option.map_some, h.eval_eq (fun _ => id) hfits hbody]
    cases hfind : F.lattice.find? (MergePoint.fits (F.hereAt (t.coordVar .dimension))) with
    | none => exact absurd hfits (List.find?_eq_none.mp hfind q h.mem)
    | some r =>
      have hsub := h.subset_of_fits h.le_coord (List.mem_of_find?_eq_some hfind) (List.find?_some hfind)
      have hkeeps : r.keeps = q.keeps := by
        funext node
        rw [Bool.eq_iff_iff, MergePoint.keeps_iff, MergePoint.keeps_iff]
        exact ⟨fun hmem => hsub hmem, fun hmem => hF.greatest _ r hfind q h.mem hfits hmem⟩
      rw [Forall.visited_of_find? hfind, hkeeps]
  · have hagree : ∀ r ∈ F.lattice.subLattice p, ∀ clause, ClauseOf F r clause →
        (clause.1.all fun it => t.coordVar it = t.coordVar .dimension) = r.fits (F.hereAt (t.coordVar .dimension)) := by
      intro r hr clause hclause
      obtain ⟨hr, hsub⟩ := (Forall.mem_subLattice h.mem_p).mp hr
      rw [hclause.1, Bool.eq_iff_iff]
      exact h.clause_iff hlength hr fun it hit => (h.mem_iff it).mpr (hsub hit)
    rw [hcases, MergeCases.body]
    simp only [declLocatePosVars_coordVar]
    rcases forall₂_find? hclauses hagree with ⟨hnone, hfind⟩ | ⟨r, clause, hsome, hfind, -, hbody⟩
    · have hexact : (F.lattice.subLattice p).exact F.nodes = false := by
        rw [← Bool.not_eq_true]
        intro hexact
        obtain ⟨r, hr, hfits⟩ := h.exists_fits_of_exact hexact
        exact absurd hfits (List.find?_eq_none.mp hnone r hr)
      rw [h.find?_subLattice] at hnone
      rw [hfind, Forall.visited_of_find?_eq_none hnone]
      simp [hexact]
    · have hfits := List.find?_some hsome
      have hmem := (Forall.mem_subLattice h.mem_p).mp (List.mem_of_find?_eq_some hsome)
      rw [h.find?_subLattice] at hsome
      rw [hfind, Option.map_some, h.eval_eq (fun it hit => (h.mem_iff it).mpr (hmem.2 hit)) hfits hbody,
        Forall.visited_of_find? hsome]

end Pass

end Lower
end Taco
