import Taco.Lower.MergePoints

/-! The first point of a lattice whose accesses are present has the value of the expression. -/

namespace Taco
namespace Lower

open MergeLatticeBuilder

variable {V : Type*}

/-- What an expression is left with where some compressed accesses are present. -/
def held (nodes : ℕ → AccessNode V) (here : ℕ → Bool) (node : ℕ) : Prop := (nodes node).isCompressed = true → here node = true

/-- The values where the compressed accesses that are not present are zero. -/
def restrict [Zero V] (nodes : ℕ → AccessNode V) (here : ℕ → Bool) (val : ℕ → V) (node : ℕ) : V :=
  if (nodes node).isCompressed && !here node then 0 else val node

/-- The points of the lattice of an expression. -/
structure IsLattice [Ring V] (nodes : ℕ → AccessNode V) (e : IndexExpr V) (lattice : MergeLattice) : Prop where
  ne_nil : lattice ≠ []
  merged : ∀ p ∈ lattice, ∀ it ∈ p.iterators, it.Merged nodes
  accesses : ∀ p ∈ lattice, ∀ it ∈ p.iterators, ∀ node, it.modeAccess = some node → node ∈ e.accesses
  indexSet_iff : ∀ p ∈ lattice, ∀ node, .indexSet node ∈ p.iterators ↔
    .level node ∈ p.iterators ∧ (Iterator.level node).hasIndexSet nodes = true
  nodup : ∀ p ∈ lattice, p.iterators.Nodup
  iterators_ne_nil : ∀ p ∈ lattice, p.iterators ≠ []
  dimension_iff : ∀ p ∈ lattice, .dimension ∈ p.iterators ↔ .dimension ∈ lattice.iterators
  dimension_fits : .dimension ∈ lattice.iterators → ∃ p ∈ lattice, p.fits (fun _ => false) = true
  covers : ∀ node ∈ e.accesses, (nodes node).isCompressed = true → .level node ∈ lattice.iterators
  locators : ∀ p ∈ lattice, ∀ it ∈ p.locators, ∃ node ∈ e.accesses, (nodes node).isDense = true ∧ it = .level node
  located : ∀ p ∈ lattice, ∀ node, (nodes node).isDense = true → e.Live (held nodes p.keeps) node → .level node ∈ p.locators
  defined_iff : ∀ here, (∃ p ∈ lattice, p.fits here = true) ↔ e.Defined (held nodes here)
  greatest : ∀ here p, lattice.find? (MergePoint.fits here) = some p → ∀ q ∈ lattice, q.fits here = true →
    q.iterators ⊆ p.iterators
  agrees : ∀ here p val, lattice.find? (MergePoint.fits here) = some p →
    e.eval (restrict nodes p.keeps val) = e.eval (restrict nodes here val)

variable {nodes : ℕ → AccessNode V}

/-! ### One point -/

theorem mem_iterators_of_head {lattice : MergeLattice} {it : Iterator} (h : it ∈ lattice.iterators) :
    ∃ p rest, lattice = p :: rest ∧ it ∈ p.iterators := by
  cases lattice with
  | nil => simp [MergeLattice.iterators] at h
  | cons p rest => exact ⟨p, rest, rfl, h⟩

@[simp] theorem iterators_cons (p : MergePoint) (rest : MergeLattice) : MergeLattice.iterators (p :: rest) = p.iterators := rfl

theorem restrict_of_not_isCompressed [Zero V] {here : ℕ → Bool} {val : ℕ → V} {node : ℕ}
    (h : (nodes node).isCompressed = false) : restrict nodes here val node = val node := by
  simp [restrict, h]

theorem MergePoint.here_of_keeps {here : ℕ → Bool} {p : MergePoint} (h : p.fits here = true) {node : ℕ}
    (hkeeps : p.keeps node = true) : here node = true := MergePoint.fits_iff.mp h _ (MergePoint.keeps_iff.mp hkeeps)

variable [Ring V]

theorem eval_restrict_of_not_defined {e : IndexExpr V} {here : ℕ → Bool} (h : ¬e.Defined (held nodes here)) (val : ℕ → V) :
    e.eval (restrict nodes here val) = 0 := by
  refine IndexExpr.eval_of_not_defined h fun node _ hnot => ?_
  rw [held, Classical.not_imp, Bool.not_eq_true] at hnot
  simp [restrict, hnot.1, hnot.2]

theorem isLattice_singleton {e : IndexExpr V} {p : MergePoint} (merged : ∀ it ∈ p.iterators, it.Merged nodes)
    (accesses : ∀ it ∈ p.iterators, ∀ node, it.modeAccess = some node → node ∈ e.accesses)
    (indexSet_iff : ∀ node, .indexSet node ∈ p.iterators ↔
      .level node ∈ p.iterators ∧ (Iterator.level node).hasIndexSet nodes = true)
    (nodup : p.iterators.Nodup) (ne_nil : p.iterators ≠ [])
    (dimension_fits : .dimension ∈ p.iterators → p.fits (fun _ => false) = true)
    (covers : ∀ node ∈ e.accesses, (nodes node).isCompressed = true → .level node ∈ p.iterators)
    (locators : ∀ it ∈ p.locators, ∃ node ∈ e.accesses, (nodes node).isDense = true ∧ it = .level node)
    (located : ∀ node, (nodes node).isDense = true → e.Live (held nodes p.keeps) node → .level node ∈ p.locators)
    (defined_iff : ∀ here, p.fits here = true ↔ e.Defined (held nodes here))
    (agrees : ∀ here val, p.fits here = true → e.eval (restrict nodes p.keeps val) = e.eval (restrict nodes here val)) :
    IsLattice nodes e [p] where
  ne_nil := List.cons_ne_nil _ _
  merged := List.forall_mem_singleton.mpr merged
  accesses := List.forall_mem_singleton.mpr accesses
  indexSet_iff := List.forall_mem_singleton.mpr indexSet_iff
  nodup := List.forall_mem_singleton.mpr nodup
  iterators_ne_nil := List.forall_mem_singleton.mpr ne_nil
  dimension_iff := List.forall_mem_singleton.mpr Iff.rfl
  dimension_fits h := ⟨p, List.mem_singleton_self p, dimension_fits h⟩
  covers := covers
  locators := List.forall_mem_singleton.mpr locators
  located := List.forall_mem_singleton.mpr located
  defined_iff here := by rw [← defined_iff here]; simp
  greatest here q h r hr _ := by
    obtain rfl := List.mem_singleton.mp hr
    obtain rfl := List.mem_singleton.mp (List.mem_of_find?_eq_some h)
    exact fun _ => id
  agrees here q val h := by
    obtain rfl := List.mem_singleton.mp (List.mem_of_find?_eq_some h)
    exact agrees here val (List.find?_some h)

/-- Expressions without levels are there at each coordinate of the dimension. -/
theorem isLattice_modeIteration {e : IndexExpr V} (hcompressed : ∀ node ∈ e.accesses, (nodes node).isCompressed = false)
    (hdense : ∀ node ∈ e.accesses, (nodes node).isDense = false)
    (hdefined : ∀ present, (∀ node ∈ e.accesses, present node) → e.Defined present) :
    IsLattice nodes e modeIterationLattice := by
  refine isLattice_singleton ?_ ?_ (by simp) (List.nodup_singleton _) (List.cons_ne_nil _ _) (fun _ => rfl) ?_ (by simp) ?_ ?_ ?_
  · exact List.forall_mem_singleton.mpr .dimension
  · exact List.forall_mem_singleton.mpr fun node hnode => by cases hnode
  · intro node hnode h
    rw [hcompressed node hnode] at h
    cases h
  · intro node h hlive
    rw [hdense node hlive.mem_accesses] at h
    cases h
  · refine fun here => iff_of_true rfl (hdefined _ fun node hnode h => ?_)
    rw [hcompressed node hnode] at h
    cases h
  · refine fun here val _ => IndexExpr.eval_congr fun node hnode => ?_
    rw [restrict_of_not_isCompressed (hcompressed node hnode), restrict_of_not_isCompressed (hcompressed node hnode)]

/-- The lattice of an access to a dense level iterates over the dimension and locates. -/
theorem isLattice_dense {node : ℕ} (h : (nodes node).isDense = true) :
    IsLattice nodes (.access node) (accessLattice nodes node) := by
  have hformat : (nodes node).isCompressed = false ∧ (nodes node).getModeFormat = some .dense := by
    cases hnode : nodes node <;> simp_all [AccessNode.isCompressed, AccessNode.isDense, AccessNode.getModeFormat]
  have hlattice : accessLattice nodes node = [⟨[.dimension], [.level node]⟩] := by
    simp [accessLattice, Iterator.hasCoordIter, Iterator.hasPosIter, Iterator.getModeFormat, hformat.2,
      ModeFormat.hasCoordValIter, ModeFormat.hasCoordPosIter]
  rw [hlattice]
  refine isLattice_singleton ?_ ?_ (by simp) (List.nodup_singleton _) (List.cons_ne_nil _ _) (fun _ => rfl) ?_ ?_ ?_ ?_ ?_
  · exact List.forall_mem_singleton.mpr .dimension
  · exact List.forall_mem_singleton.mpr fun node hnode => by cases hnode
  · intro node' hnode hc
    obtain rfl := List.mem_singleton.mp hnode
    rw [hformat.1] at hc
    cases hc
  · exact List.forall_mem_singleton.mpr ⟨node, List.mem_singleton_self _, h, rfl⟩
  · intro node' _ hlive
    obtain rfl := hlive.1
    exact List.mem_singleton_self _
  · refine fun here => iff_of_true rfl fun hc => ?_
    rw [hformat.1] at hc
    cases hc
  · intro here val _
    simp [IndexExpr.eval, restrict_of_not_isCompressed hformat.1]

/-- The lattice of an access to a compressed level iterates over its positions, and over its index set. -/
theorem isLattice_compressed {node : ℕ} (h : (nodes node).isCompressed = true) :
    IsLattice nodes (.access node) (accessLattice nodes node) := by
  have hlattice : accessLattice nodes node =
      [⟨.level node :: if (Iterator.level node).hasIndexSet nodes then [.indexSet node] else [], []⟩] := by
    simp [accessLattice, Iterator.hasPosIter, Iterator.getModeFormat, Iterator.isDimensionIterator,
      Iterator.getModeFormat_of_isCompressed h, ModeFormat.hasCoordPosIter]
  have hmem : ∀ it, it ∈ (Iterator.level node :: if (Iterator.level node).hasIndexSet nodes then [Iterator.indexSet node] else []) ↔
      it = .level node ∨ it = .indexSet node ∧ (Iterator.level node).hasIndexSet nodes = true := by
    intro it
    cases (Iterator.level node).hasIndexSet nodes <;> simp
  rw [hlattice]
  refine isLattice_singleton ?_ ?_ ?_ ?_ (List.cons_ne_nil _ _) (fun h => by simp [hmem] at h) ?_ (by simp) ?_ ?_ ?_
  · intro it hit
    rcases (hmem it).mp hit with rfl | ⟨rfl, -⟩
    · exact .level h
    · exact .indexSet h
  · intro it hit node' hnode
    rcases (hmem it).mp hit with rfl | ⟨rfl, -⟩ <;> exact List.mem_singleton.mpr (Option.some.inj hnode).symm
  · intro node'
    rw [hmem, hmem]
    simp only [reduceCtorEq, false_or, Iterator.indexSet.injEq, false_and, or_false, Iterator.level.injEq]
    exact and_congr_right fun heq => by rw [heq]
  · cases (Iterator.level node).hasIndexSet nodes <;> simp
  · intro node' hnode _
    obtain rfl := List.mem_singleton.mp hnode
    exact (hmem _).mpr (Or.inl rfl)
  · intro node' hdense hlive
    obtain rfl := hlive.1
    cases hn : nodes node' <;> simp_all [AccessNode.isCompressed, AccessNode.isDense]
  · intro here
    rw [MergePoint.fits_iff]
    constructor
    · exact fun hfits _ => hfits _ ((hmem _).mpr (Or.inl rfl))
    · intro hheld it hit
      rcases (hmem it).mp hit with rfl | ⟨rfl, -⟩ <;> exact hheld h
  · intro here val hfits
    have hhere : here node = true := MergePoint.fits_iff.mp hfits _ ((hmem _).mpr (Or.inl rfl))
    have hkeeps : MergePoint.keeps ⟨.level node :: if (Iterator.level node).hasIndexSet nodes then [.indexSet node] else [], []⟩
        node = true := MergePoint.keeps_iff.mpr ((hmem _).mpr (Or.inl rfl))
    simp [IndexExpr.eval, restrict, hhere, hkeeps]

/-! ### Pairs of points -/

/-- The iterators besides that of the dimension, and the locators, are those of both points. -/
structure IsPair (p q r : MergePoint) : Prop where
  mem_iff : ∀ it, it ≠ .dimension → (it ∈ r.iterators ↔ it ∈ p.iterators ∨ it ∈ q.iterators)
  mem_locators : ∀ it, it ∈ r.locators ↔ it ∈ p.locators ∨ it ∈ q.locators
  nodup : r.iterators.Nodup

section

variable {a b : IndexExpr V} {left right : MergeLattice} (ha : IsLattice nodes a left) (hb : IsLattice nodes b right)
  (hdisj : a.accesses.Disjoint b.accesses) {p q r : MergePoint} (hp : p ∈ left) (hq : q ∈ right)

theorem IsPair.mem_or {it : Iterator} (h : IsPair p q r) (hit : it ∈ r.iterators) :
    it = .dimension ∨ it ∈ p.iterators ∨ it ∈ q.iterators :=
  or_iff_not_imp_left.mpr fun hne => (h.mem_iff it hne).mp hit

theorem IsPair.fits (h : IsPair p q r) (here : ℕ → Bool) : r.fits here = (p.fits here && q.fits here) := by
  rw [Bool.eq_iff_iff, Bool.and_eq_true, MergePoint.fits_iff, MergePoint.fits_iff, MergePoint.fits_iff]
  constructor
  · refine fun hr => ⟨fun it hit => ?_, fun it hit => ?_⟩ <;> by_cases hne : it = .dimension
    · rw [hne]; rfl
    · exact hr it ((h.mem_iff it hne).mpr (Or.inl hit))
    · rw [hne]; rfl
    · exact hr it ((h.mem_iff it hne).mpr (Or.inr hit))
  · rintro ⟨hp, hq⟩ it hit
    rcases h.mem_or hit with rfl | hit | hit
    · rfl
    · exact hp it hit
    · exact hq it hit

include ha hb hp hq

theorem IsPair.merged (h : IsPair p q r) : ∀ it ∈ r.iterators, it.Merged nodes := by
  intro it hit
  rcases h.mem_or hit with rfl | hit | hit
  · exact .dimension
  · exact ha.merged p hp it hit
  · exact hb.merged q hq it hit

theorem IsPair.accesses (h : IsPair p q r) :
    ∀ it ∈ r.iterators, ∀ node, it.modeAccess = some node → node ∈ a.accesses ++ b.accesses := by
  intro it hit node hnode
  rcases h.mem_or hit with rfl | hit | hit
  · cases hnode
  · exact List.mem_append_left _ (ha.accesses p hp it hit node hnode)
  · exact List.mem_append_right _ (hb.accesses q hq it hit node hnode)

theorem IsPair.indexSet_iff (h : IsPair p q r) (node : ℕ) : .indexSet node ∈ r.iterators ↔
    .level node ∈ r.iterators ∧ (Iterator.level node).hasIndexSet nodes = true := by
  rw [h.mem_iff _ (by simp), h.mem_iff _ (by simp), ha.indexSet_iff p hp, hb.indexSet_iff q hq, or_and_right]

theorem IsPair.locators (h : IsPair p q r) :
    ∀ it ∈ r.locators, ∃ node ∈ a.accesses ++ b.accesses, (nodes node).isDense = true ∧ it = .level node := by
  intro it hit
  rcases (h.mem_locators it).mp hit with hit | hit
  · obtain ⟨node, hnode, hdense⟩ := ha.locators p hp it hit
    exact ⟨node, List.mem_append_left _ hnode, hdense⟩
  · obtain ⟨node, hnode, hdense⟩ := hb.locators q hq it hit
    exact ⟨node, List.mem_append_right _ hnode, hdense⟩

include hdisj

omit ha hp in
theorem IsPair.keeps_left (h : IsPair p q r) : ∀ node ∈ a.accesses, r.keeps node = p.keeps node := by
  intro node hnode
  rw [Bool.eq_iff_iff, MergePoint.keeps_iff, MergePoint.keeps_iff, h.mem_iff _ (by simp)]
  exact or_iff_left fun hit => hdisj hnode (hb.accesses q hq _ hit node rfl)

omit hb hq in
theorem IsPair.keeps_right (h : IsPair p q r) : ∀ node ∈ b.accesses, r.keeps node = q.keeps node := by
  intro node hnode
  rw [Bool.eq_iff_iff, MergePoint.keeps_iff, MergePoint.keeps_iff, h.mem_iff _ (by simp)]
  exact or_iff_right fun hit => hdisj (ha.accesses p hp _ hit node rfl) hnode

theorem IsPair.located (h : IsPair p q r) {node : ℕ} (hdense : (nodes node).isDense = true)
    (hlive : a.Live (held nodes r.keeps) node ∨ b.Live (held nodes r.keeps) node) : .level node ∈ r.locators := by
  rw [h.mem_locators]
  refine hlive.imp (fun hlive => ha.located p hp node hdense ?_) fun hlive => hb.located q hq node hdense ?_
  · refine (IndexExpr.live_congr fun x hx => ?_).mp hlive
    rw [held, held, h.keeps_left hb hdisj hq x hx]
  · refine (IndexExpr.live_congr fun x hx => ?_).mp hlive
    rw [held, held, h.keeps_right ha hdisj hp x hx]

omit ha hp in
theorem IsPair.eval_left (h : IsPair p q r) (val : ℕ → V) :
    a.eval (restrict nodes r.keeps val) = a.eval (restrict nodes p.keeps val) :=
  IndexExpr.eval_congr fun x hx => by rw [restrict, restrict, h.keeps_left hb hdisj hq x hx]

omit hb hq in
theorem IsPair.eval_right (h : IsPair p q r) (val : ℕ → V) :
    b.eval (restrict nodes r.keeps val) = b.eval (restrict nodes q.keeps val) :=
  IndexExpr.eval_congr fun x hx => by rw [restrict, restrict, h.keeps_right ha hdisj hp x hx]

/-- Iterators of the same access come from the same point. -/
theorem ne_of_mem {it it' : Iterator} (hit : it ∈ p.iterators) (hit' : it' ∈ q.iterators) (hne : it ≠ .dimension) :
    it ≠ it' := by
  rintro rfl
  cases it with
  | dimension => exact hne rfl
  | level node => exact hdisj (ha.accesses p hp _ hit node rfl) (hb.accesses q hq _ hit' node rfl)
  | indexSet node => exact hdisj (ha.accesses p hp _ hit node rfl) (hb.accesses q hq _ hit' node rfl)

theorem nodup_append_filter : ((p.iterators ++ q.iterators).filter fun it => !it.isDimensionIterator).Nodup := by
  rw [List.filter_append]
  refine List.nodup_append.mpr ⟨(ha.nodup p hp).filter _, (hb.nodup q hq).filter _, fun it hit it' hit' => ?_⟩
  obtain ⟨hit, hne⟩ := List.mem_filter.mp hit
  exact ne_of_mem ha hb hdisj hp hq hit (List.mem_filter.mp hit').1 (by simpa using hne)

theorem isPair_unionPoints : IsPair p q (unionPoints p q) where
  mem_iff it _ := by rw [unionPoints, mem_deduplicateDimensionIterators, List.mem_append]
  mem_locators it := by rw [unionPoints, List.mem_append]
  nodup := nodup_deduplicateDimensionIterators (nodup_append_filter ha hb hdisj hp hq)

theorem isPair_intersectPoints (locateLeft : Bool) : IsPair p q (intersectPoints nodes locateLeft p q) := by
  -- No iterator that is merged locates.
  have hleft : (p.iterators.filter fun it => !it.hasLocate nodes) = p.iterators ∧
      (p.iterators.filter fun it => it.hasLocate nodes) = [] :=
    ⟨List.filter_eq_self.mpr fun it hit => by simp [(ha.merged p hp it hit).hasLocate],
      List.filter_eq_nil_iff.mpr fun it hit => by simp [(ha.merged p hp it hit).hasLocate]⟩
  have hright : (q.iterators.filter fun it => !it.hasLocate nodes) = q.iterators ∧
      (q.iterators.filter fun it => it.hasLocate nodes) = [] :=
    ⟨List.filter_eq_self.mpr fun it hit => by simp [(hb.merged q hq it hit).hasLocate],
      List.filter_eq_nil_iff.mpr fun it hit => by simp [(hb.merged q hq it hit).hasLocate]⟩
  have hnodup := nodup_append_filter ha hb hdisj hp hq
  rw [List.filter_append] at hnodup
  cases locateLeft
  · refine ⟨fun it hne => ?_, fun it => ?_, nodup_deduplicateDimensionIterators ?_⟩
    · simp [intersectPoints, mem_deduplicateDimensionIterators, hright.1, hne]
    · simp [intersectPoints, hright.2]
    · simpa [hright.1] using hnodup
  · refine ⟨fun it hne => ?_, fun it => ?_, nodup_deduplicateDimensionIterators ?_⟩
    · simp [intersectPoints, mem_deduplicateDimensionIterators, hleft.1, hne]
    · simp [intersectPoints, hleft.2]
    · simpa [hleft.1] using hnodup

end

/-! ### Products -/

section

variable {a b : IndexExpr V} {left right : MergeLattice} (ha : IsLattice nodes a left) (hb : IsLattice nodes b right)
  (hdisj : a.accesses.Disjoint b.accesses)

include ha hb

theorem dimension_mem_intersectPoints {p q : MergePoint} (hp : p ∈ left) (hq : q ∈ right) :
    .dimension ∈ (intersectPoints nodes (locateFromLeft nodes left right) p q).iterators ↔
      .dimension ∈ p.iterators ∧ .dimension ∈ q.iterators := by
  rw [ha.dimension_iff p hp, hb.dimension_iff q hq]
  have hpdim := ha.dimension_iff p hp
  have hqdim := hb.dimension_iff q hq
  by_cases hright : .dimension ∈ right.iterators
  · have hlocate : locateFromLeft nodes left right = false := by
      rw [locateFromLeft, Iterator.any_isDimensionIterator, if_pos (decide_eq_true hright)]
    simp [hlocate, intersectPoints, mem_deduplicateDimensionIterators, hpdim, hright]
  · by_cases hleft : .dimension ∈ left.iterators
    · have hlocate : locateFromLeft nodes left right = true := by
        rw [locateFromLeft, Iterator.any_isDimensionIterator, Iterator.any_isDimensionIterator, if_neg (by simp [hright]),
          if_pos (decide_eq_true hleft)]
      simp [hlocate, intersectPoints, mem_deduplicateDimensionIterators, hqdim, hright]
    · simp only [hright, hleft, and_self, iff_false]
      intro hmem
      rw [intersectPoints] at hmem
      split at hmem <;> simp [mem_deduplicateDimensionIterators, hpdim, hqdim, hleft, hright] at hmem

include hdisj

theorem isLattice_mul : IsLattice nodes (.mul a b) (intersectLattices nodes left right) := by
  have hpair : ∀ r ∈ intersectLattices nodes left right, ∃ p ∈ left, ∃ q ∈ right,
      r = intersectPoints nodes (locateFromLeft nodes left right) p q := fun r hr => by
    obtain ⟨p, hp, hr⟩ := List.mem_flatMap.mp hr
    obtain ⟨q, hq, rfl⟩ := List.mem_map.mp hr
    exact ⟨p, hp, q, hq, rfl⟩
  have hof : ∀ p ∈ left, ∀ q ∈ right, IsPair p q (intersectPoints nodes (locateFromLeft nodes left right) p q) :=
    fun p hp q hq => isPair_intersectPoints ha hb hdisj hp hq _
  have hfind : ∀ here, (intersectLattices nodes left right).find? (MergePoint.fits here) =
      (left.find? (MergePoint.fits here)).bind fun p => (right.find? (MergePoint.fits here)).map
        (intersectPoints nodes (locateFromLeft nodes left right) p) :=
    fun here => find?_pairs fun p hp q hq => (hof p hp q hq).fits here
  have hsome : ∀ here r, (intersectLattices nodes left right).find? (MergePoint.fits here) = some r →
      ∃ p q, left.find? (MergePoint.fits here) = some p ∧ right.find? (MergePoint.fits here) = some q ∧
        r = intersectPoints nodes (locateFromLeft nodes left right) p q := fun here r h => by
    rw [hfind here, Option.bind_eq_some_iff] at h
    obtain ⟨p, hp, h⟩ := h
    obtain ⟨q, hq, rfl⟩ := Option.map_eq_some_iff.mp h
    exact ⟨p, q, hp, hq, rfl⟩
  obtain ⟨p₀, left', hleft⟩ := List.exists_cons_of_ne_nil ha.ne_nil
  obtain ⟨q₀, right', hright⟩ := List.exists_cons_of_ne_nil hb.ne_nil
  have hp₀ : p₀ ∈ left := hleft ▸ List.mem_cons_self
  have hq₀ : q₀ ∈ right := hright ▸ List.mem_cons_self
  have hfirst : (intersectLattices nodes left right).iterators =
      (intersectPoints nodes (locateFromLeft nodes left right) p₀ q₀).iterators := by
    rw [intersectLattices]
    simp only [hleft, hright, List.flatMap_cons, List.map_cons, List.cons_append]
    rfl
  have hdim : ∀ p ∈ left, ∀ q ∈ right, .dimension ∈ (intersectPoints nodes (locateFromLeft nodes left right) p q).iterators ↔
      .dimension ∈ left.iterators ∧ .dimension ∈ right.iterators := fun p hp q hq => by
    rw [dimension_mem_intersectPoints ha hb hp hq, ha.dimension_iff p hp, hb.dimension_iff q hq]
  refine ⟨?_, ?_, ?_, ?_, ?_, ?_, ?_, ?_, ?_, ?_, ?_, ?_, ?_, ?_⟩
  · have hmem : intersectPoints nodes (locateFromLeft nodes left right) p₀ q₀ ∈ intersectLattices nodes left right :=
      List.mem_flatMap.mpr ⟨p₀, hp₀, List.mem_map.mpr ⟨q₀, hq₀, rfl⟩⟩
    exact List.ne_nil_of_mem hmem
  · intro r hr
    obtain ⟨p, hp, q, hq, rfl⟩ := hpair r hr
    exact (hof p hp q hq).merged ha hb hp hq
  · intro r hr
    obtain ⟨p, hp, q, hq, rfl⟩ := hpair r hr
    exact (hof p hp q hq).accesses ha hb hp hq
  · intro r hr
    obtain ⟨p, hp, q, hq, rfl⟩ := hpair r hr
    exact (hof p hp q hq).indexSet_iff ha hb hp hq
  · intro r hr
    obtain ⟨p, hp, q, hq, rfl⟩ := hpair r hr
    exact (hof p hp q hq).nodup
  · intro r hr
    obtain ⟨p, hp, q, hq, rfl⟩ := hpair r hr
    -- A point without iterators would be a pair of two dimension iterators, which keeps one of them.
    intro hnil
    have hnot : ∀ it, it ∉ (intersectPoints nodes (locateFromLeft nodes left right) p q).iterators := by simp [hnil]
    have honly : (∀ it ∈ p.iterators, it = .dimension) ∧ ∀ it ∈ q.iterators, it = .dimension := by
      refine ⟨fun it hit => ?_, fun it hit => ?_⟩ <;> by_contra hne
      · exact hnot it (((hof p hp q hq).mem_iff it hne).mpr (Or.inl hit))
      · exact hnot it (((hof p hp q hq).mem_iff it hne).mpr (Or.inr hit))
    obtain ⟨it, hit⟩ := List.exists_mem_of_ne_nil _ (ha.iterators_ne_nil p hp)
    obtain ⟨it', hit'⟩ := List.exists_mem_of_ne_nil _ (hb.iterators_ne_nil q hq)
    obtain rfl := honly.1 it hit
    obtain rfl := honly.2 it' hit'
    exact hnot _ ((dimension_mem_intersectPoints ha hb hp hq).mpr ⟨hit, hit'⟩)
  · intro r hr
    obtain ⟨p, hp, q, hq, rfl⟩ := hpair r hr
    rw [hfirst, hdim p hp q hq, hdim p₀ hp₀ q₀ hq₀]
  · rw [hfirst, hdim p₀ hp₀ q₀ hq₀]
    rintro ⟨hleftDim, hrightDim⟩
    obtain ⟨p, hp, hpfits⟩ := ha.dimension_fits hleftDim
    obtain ⟨q, hq, hqfits⟩ := hb.dimension_fits hrightDim
    refine ⟨_, List.mem_flatMap.mpr ⟨p, hp, List.mem_map.mpr ⟨q, hq, rfl⟩⟩, ?_⟩
    rw [(hof p hp q hq).fits, hpfits, hqfits, Bool.and_true]
  · intro node hnode hc
    rw [hfirst, (hof p₀ hp₀ q₀ hq₀).mem_iff _ (by simp)]
    refine (List.mem_append.mp hnode).imp (fun hnode => ?_) fun hnode => ?_
    · simpa [hleft] using ha.covers node hnode hc
    · simpa [hright] using hb.covers node hnode hc
  · intro r hr
    obtain ⟨p, hp, q, hq, rfl⟩ := hpair r hr
    exact (hof p hp q hq).locators ha hb hp hq
  · intro r hr node hdense hlive
    obtain ⟨p, hp, q, hq, rfl⟩ := hpair r hr
    exact (hof p hp q hq).located ha hb hdisj hp hq hdense hlive.2
  · intro here
    rw [IndexExpr.Defined, ← ha.defined_iff here, ← hb.defined_iff here]
    constructor
    · rintro ⟨r, hr, hfits⟩
      obtain ⟨p, hp, q, hq, rfl⟩ := hpair r hr
      rw [(hof p hp q hq).fits here, Bool.and_eq_true] at hfits
      exact ⟨⟨p, hp, hfits.1⟩, q, hq, hfits.2⟩
    · rintro ⟨⟨p, hp, hpfits⟩, q, hq, hqfits⟩
      refine ⟨_, List.mem_flatMap.mpr ⟨p, hp, List.mem_map.mpr ⟨q, hq, rfl⟩⟩, ?_⟩
      rw [(hof p hp q hq).fits here, hpfits, hqfits, Bool.and_true]
  · intro here r h r' hr' hfits
    obtain ⟨p, q, hp, hq, rfl⟩ := hsome here r h
    obtain ⟨p', hp', q', hq', rfl⟩ := hpair r' hr'
    rw [(hof p' hp' q' hq').fits here, Bool.and_eq_true] at hfits
    have hple := ha.greatest here p hp p' hp' hfits.1
    have hqle := hb.greatest here q hq q' hq' hfits.2
    have hpmem := List.mem_of_find?_eq_some hp
    have hqmem := List.mem_of_find?_eq_some hq
    intro it hit
    by_cases hne : it = .dimension
    · subst hne
      rw [dimension_mem_intersectPoints ha hb hp' hq'] at hit
      exact (dimension_mem_intersectPoints ha hb hpmem hqmem).mpr ⟨hple hit.1, hqle hit.2⟩
    · rw [(hof p' hp' q' hq').mem_iff it hne] at hit
      exact ((hof p hpmem q hqmem).mem_iff it hne).mpr (hit.imp (fun h => hple h) fun h => hqle h)
  · intro here r val h
    obtain ⟨p, q, hp, hq, rfl⟩ := hsome here r h
    have hof := hof p (List.mem_of_find?_eq_some hp) q (List.mem_of_find?_eq_some hq)
    rw [IndexExpr.eval, IndexExpr.eval, hof.eval_left hb hdisj (List.mem_of_find?_eq_some hq) val,
      hof.eval_right ha hdisj (List.mem_of_find?_eq_some hp) val, ha.agrees here p val hp, hb.agrees here q val hq]

end

/-! ### Sums -/

section

variable {a b e : IndexExpr V} {left right : MergeLattice}

/-- The points of a union before they are pruned. -/
def unionPairs (left right : MergeLattice) : MergeLattice := left.flatMap fun p => right.map fun q => unionPoints p q

theorem mem_unionPairs {r : MergePoint} : r ∈ unionPairs left right ↔ ∃ p ∈ left, ∃ q ∈ right, unionPoints p q = r := by
  simp [unionPairs, List.mem_flatMap]

/-- A point at which something is left of an expression with other accesses comes from the dimension. -/
theorem only_dimension_of_defined (ha : IsLattice nodes a left) (hb : IsLattice nodes b right)
    (hdisj : a.accesses.Disjoint b.accesses) {p : MergePoint} (hp : p ∈ left) (hdefined : b.Defined (held nodes p.keeps)) :
    ∃ q ∈ right, ∀ it, it ∈ q.iterators ↔ it = .dimension := by
  obtain ⟨q, hq, hfits⟩ := (hb.defined_iff p.keeps).mpr hdefined
  have honly : ∀ it ∈ q.iterators, it = .dimension := by
    intro it hit
    have hkeeps := MergePoint.fits_iff.mp hfits it hit
    cases it with
    | dimension => rfl
    | level node | indexSet node =>
      exact absurd (hb.accesses q hq _ hit node rfl)
        (hdisj (ha.accesses p hp _ (MergePoint.keeps_iff.mp hkeeps) node rfl))
  obtain ⟨it, hit⟩ := List.exists_mem_of_ne_nil _ (hb.iterators_ne_nil q hq)
  exact ⟨q, hq, fun it' => ⟨honly it', fun h => h.trans (honly it hit).symm ▸ hit⟩⟩

variable (ha : IsLattice nodes a left) (hb : IsLattice nodes b right) (hdisj : a.accesses.Disjoint b.accesses)

include ha hb hdisj

theorem merged_unionPairs : ∀ r ∈ unionPairs left right ++ (left ++ right), ∀ it ∈ r.iterators, it.Merged nodes := by
  intro r hr
  rcases List.mem_append.mp hr with hr | hr
  · obtain ⟨p, hp, q, hq, rfl⟩ := mem_unionPairs.mp hr
    exact (isPair_unionPoints ha hb hdisj hp hq).merged ha hb hp hq
  · rcases List.mem_append.mp hr with hr | hr
    · exact ha.merged r hr
    · exact hb.merged r hr

/-- The pruned points: those with a dimension iterator if there is one, and one of each set of iterators. -/
theorem unionLattices_eq : unionLattices nodes left right = removePointsWithIdenticalIterators []
    ((unionPairs left right ++ (left ++ right)).filter fun p => decide
      (.dimension ∈ MergeLattice.iterators (unionPairs left right ++ (left ++ right)) → .dimension ∈ p.iterators)) := by
  have hmerged := merged_unionPairs ha hb hdisj
  rw [unionLattices, List.append_assoc, ← unionPairs, insertDimensionIteratorIfNotOrdered_eq hmerged,
    moveLocateSubsetIteratorsToLocateSet_eq hmerged, removePointsThatLackFullIterators_eq hmerged]

theorem find?_raw (here : ℕ → Bool) : (unionPairs left right ++ (left ++ right)).find? (MergePoint.fits here) =
    match left.find? (MergePoint.fits here), right.find? (MergePoint.fits here) with
    | some p, some q => some (unionPoints p q)
    | some p, none => some p
    | none, found => found := by
  have hpairs : (unionPairs left right).find? (MergePoint.fits here) =
      (left.find? (MergePoint.fits here)).bind fun p => (right.find? (MergePoint.fits here)).map (unionPoints p) :=
    find?_pairs fun p hp q hq => (isPair_unionPoints ha hb hdisj hp hq).fits here
  rw [List.find?_append, List.find?_append, hpairs]
  cases left.find? (MergePoint.fits here) <;> cases right.find? (MergePoint.fits here) <;> rfl

omit hdisj in
theorem dimension_mem_raw : .dimension ∈ MergeLattice.iterators (unionPairs left right ++ (left ++ right)) ↔
    .dimension ∈ left.iterators ∨ .dimension ∈ right.iterators := by
  obtain ⟨p, left', rfl⟩ := List.exists_cons_of_ne_nil ha.ne_nil
  obtain ⟨q, right', rfl⟩ := List.exists_cons_of_ne_nil hb.ne_nil
  simp [unionPairs, unionPoints, mem_deduplicateDimensionIterators]

omit hb hdisj in
/-- A lattice with a dimension iterator always has a point that fits. -/
theorem find?_ne_none (hdim : .dimension ∈ left.iterators) (here : ℕ → Bool) : left.find? (MergePoint.fits here) ≠ none := by
  obtain ⟨p, hp, hfits⟩ := ha.dimension_fits hdim
  refine fun hnone => absurd (List.find?_eq_none.mp hnone p hp) ?_
  rw [not_not]
  exact MergePoint.fits_mono hfits fun node h => by cases h

/-- Pruning keeps the first point that fits. -/
theorem find?_unionLattices (here : ℕ → Bool) : (unionLattices nodes left right).find? (MergePoint.fits here) =
    (unionPairs left right ++ (left ++ right)).find? (MergePoint.fits here) := by
  rw [unionLattices_eq ha hb hdisj, find?_removePointsWithIdenticalIterators (by simp), List.find?_filter]
  have hraw := find?_raw ha hb hdisj here
  cases hfound : (unionPairs left right ++ (left ++ right)).find? (MergePoint.fits here) with
  | none =>
    rw [List.find?_eq_none] at hfound ⊢
    intro r hr
    simp [hfound r hr]
  | some r =>
    have hdim : .dimension ∈ MergeLattice.iterators (unionPairs left right ++ (left ++ right)) → .dimension ∈ r.iterators := by
      rw [dimension_mem_raw ha hb]
      intro hdim
      rw [hfound] at hraw
      cases hp : left.find? (MergePoint.fits here) with
      | none =>
        rw [hp] at hraw
        have hright := hdim.resolve_left fun h => find?_ne_none ha h here hp
        exact (hb.dimension_iff r (List.mem_of_find?_eq_some hraw.symm)).mpr hright
      | some p =>
        have hpdim := ha.dimension_iff p (List.mem_of_find?_eq_some hp)
        cases hq : right.find? (MergePoint.fits here) with
        | none =>
          simp only [hp, hq, Option.some.injEq] at hraw
          subst hraw
          exact hpdim.mpr (hdim.resolve_right fun h => find?_ne_none hb h here hq)
        | some q =>
          simp only [hp, hq, Option.some.injEq] at hraw
          subst hraw
          have hqdim := hb.dimension_iff q (List.mem_of_find?_eq_some hq)
          rw [unionPoints, mem_deduplicateDimensionIterators, List.mem_append, hpdim, hqdim]
          exact hdim
    obtain ⟨hfits, before, after, hsplit, hbefore⟩ := List.find?_eq_some_iff_append.mp hfound
    refine List.find?_eq_some_iff_append.mpr ⟨?_, before, after, hsplit, fun x hx => ?_⟩
    · exact decide_eq_true ⟨decide_eq_true hdim, hfits⟩
    · rw [Bool.not_eq_true']
      exact decide_eq_false fun h => by simpa [h.2] using hbefore x hx

/-- The points that are left of a union: those of one operand are not those of a pair. -/
theorem mem_unionLattices {r : MergePoint} (hr : r ∈ unionLattices nodes left right) :
    (∃ p ∈ left, ∃ q ∈ right, unionPoints p q = r) ∨
      (r ∈ left ∨ r ∈ right) ∧ (.dimension ∈ left.iterators ∨ .dimension ∈ right.iterators → .dimension ∈ r.iterators) ∧
        ∀ p ∈ left, ∀ q ∈ right, .dimension ∈ r.iterators → identicalIterators r (unionPoints p q) = false := by
  rw [unionLattices_eq ha hb hdisj, List.filter_append] at hr
  rcases mem_removePointsWithIdenticalIterators_append hr with hr | ⟨hr, hne⟩
  · exact Or.inl (mem_unionPairs.mp (List.mem_filter.mp hr).1)
  · obtain ⟨hr, hdim⟩ := List.mem_filter.mp hr
    rw [decide_eq_true_eq, dimension_mem_raw ha hb] at hdim
    refine Or.inr ⟨List.mem_append.mp hr, hdim, fun p hp q hq hrdim => ?_⟩
    by_contra hid
    rw [Bool.not_eq_false] at hid
    have hmem : .dimension ∈ (unionPoints p q).iterators := ((identicalIterators_iff.mp hid) _).mp hrdim
    have hfalse := hne (unionPoints p q)
      (List.mem_filter.mpr ⟨mem_unionPairs.mpr ⟨p, hp, q, hq, rfl⟩, decide_eq_true fun _ => hmem⟩)
    rw [hid] at hfalse
    cases hfalse

/-- Of an operand whose points are left alone, the other operand is not left. -/
theorem not_defined_left {r : MergePoint} (hr : r ∈ left) (hrunion : r ∈ unionLattices nodes left right)
    (hpair : ¬∃ p ∈ left, ∃ q ∈ right, unionPoints p q = r) : ¬b.Defined (held nodes r.keeps) := by
  intro hdefined
  obtain ⟨q, hq, honly⟩ := only_dimension_of_defined ha hb hdisj hr hdefined
  obtain ⟨-, hdim, hne⟩ := (mem_unionLattices ha hb hdisj hrunion).resolve_left hpair
  have hrdim := hdim (Or.inr ((hb.dimension_iff q hq).mp ((honly _).mpr rfl)))
  have hid : identicalIterators r (unionPoints r q) = true := by
    refine identicalIterators_iff.mpr fun it => ?_
    rw [unionPoints, mem_deduplicateDimensionIterators, List.mem_append, honly]
    exact ⟨Or.inl, fun h => h.elim id fun h => h ▸ hrdim⟩
  rw [hne r hr q hq hrdim] at hid
  cases hid

theorem not_defined_right {r : MergePoint} (hr : r ∈ right) (hrunion : r ∈ unionLattices nodes left right)
    (hpair : ¬∃ p ∈ left, ∃ q ∈ right, unionPoints p q = r) : ¬a.Defined (held nodes r.keeps) := by
  intro hdefined
  obtain ⟨p, hp, honly⟩ := only_dimension_of_defined hb ha hdisj.symm hr hdefined
  obtain ⟨-, hdim, hne⟩ := (mem_unionLattices ha hb hdisj hrunion).resolve_left hpair
  have hrdim := hdim (Or.inl ((ha.dimension_iff p hp).mp ((honly _).mpr rfl)))
  have hid : identicalIterators r (unionPoints p r) = true := by
    refine identicalIterators_iff.mpr fun it => ?_
    rw [unionPoints, mem_deduplicateDimensionIterators, List.mem_append, honly]
    exact ⟨Or.inr, fun h => h.elim (fun h => h ▸ hrdim) id⟩
  rw [hne p hp r hr hrdim] at hid
  cases hid

/-- Sums and differences: the operation is determined by its operands, and something is left of it if it is of one. -/
theorem isLattice_union (hacc : e.accesses = a.accesses ++ b.accesses)
    (hdefined : ∀ present, e.Defined present ↔ a.Defined present ∨ b.Defined present)
    (hlive : ∀ present node, e.Live present node ↔ a.Live present node ∨ b.Live present node)
    (heval : ∀ val val', a.eval val = a.eval val' → b.eval val = b.eval val' → e.eval val = e.eval val') :
    IsLattice nodes e (unionLattices nodes left right) := by
  have hof : ∀ p ∈ left, ∀ q ∈ right, IsPair p q (unionPoints p q) := fun p hp q hq => isPair_unionPoints ha hb hdisj hp hq
  have hmem : ∀ r ∈ unionLattices nodes left right, (∃ p ∈ left, ∃ q ∈ right, unionPoints p q = r) ∨ r ∈ left ∨ r ∈ right :=
    fun r hr => (mem_unionLattices ha hb hdisj hr).imp_right And.left
  have hpairDim : ∀ p ∈ left, ∀ q ∈ right, .dimension ∈ (unionPoints p q).iterators ↔
      .dimension ∈ left.iterators ∨ .dimension ∈ right.iterators := fun p hp q hq => by
    rw [unionPoints, mem_deduplicateDimensionIterators, List.mem_append, ha.dimension_iff p hp, hb.dimension_iff q hq]
  obtain ⟨p₀, left', hleft⟩ := List.exists_cons_of_ne_nil ha.ne_nil
  obtain ⟨q₀, right', hright⟩ := List.exists_cons_of_ne_nil hb.ne_nil
  have hp₀ : p₀ ∈ left := hleft ▸ List.mem_cons_self
  have hq₀ : q₀ ∈ right := hright ▸ List.mem_cons_self
  have hraw : MergeLattice.iterators (unionPairs left right ++ (left ++ right)) = (unionPoints p₀ q₀).iterators := by
    simp [unionPairs, hleft, hright]
  obtain ⟨rest, hcons⟩ : ∃ rest, unionLattices nodes left right = unionPoints p₀ q₀ :: rest := by
    rw [unionLattices_eq ha hb hdisj, hraw]
    simp [unionPairs, hleft, hright, removePointsWithIdenticalIterators]
  have hfirst : (unionLattices nodes left right).iterators = (unionPoints p₀ q₀).iterators := by rw [hcons, iterators_cons]
  refine ⟨?_, ?_, ?_, ?_, ?_, ?_, ?_, ?_, ?_, ?_, ?_, ?_, ?_, ?_⟩
  · exact hcons ▸ List.cons_ne_nil _ _
  · intro r hr
    rcases hmem r hr with ⟨p, hp, q, hq, rfl⟩ | hr | hr
    · exact (hof p hp q hq).merged ha hb hp hq
    · exact ha.merged r hr
    · exact hb.merged r hr
  · intro r hr it hit node hnode
    rw [hacc]
    rcases hmem r hr with ⟨p, hp, q, hq, rfl⟩ | hr | hr
    · exact (hof p hp q hq).accesses ha hb hp hq it hit node hnode
    · exact List.mem_append_left _ (ha.accesses r hr it hit node hnode)
    · exact List.mem_append_right _ (hb.accesses r hr it hit node hnode)
  · intro r hr
    rcases hmem r hr with ⟨p, hp, q, hq, rfl⟩ | hr | hr
    · exact (hof p hp q hq).indexSet_iff ha hb hp hq
    · exact ha.indexSet_iff r hr
    · exact hb.indexSet_iff r hr
  · intro r hr
    rcases hmem r hr with ⟨p, hp, q, hq, rfl⟩ | hr | hr
    · exact (hof p hp q hq).nodup
    · exact ha.nodup r hr
    · exact hb.nodup r hr
  · intro r hr
    rcases hmem r hr with ⟨p, hp, q, hq, rfl⟩ | hr | hr
    · obtain ⟨it, hit⟩ := List.exists_mem_of_ne_nil _ (ha.iterators_ne_nil p hp)
      refine List.ne_nil_of_mem (a := it) ?_
      rw [unionPoints, mem_deduplicateDimensionIterators]
      exact List.mem_append_left _ hit
    · exact ha.iterators_ne_nil r hr
    · exact hb.iterators_ne_nil r hr
  · intro r hr
    rw [hfirst, hpairDim p₀ hp₀ q₀ hq₀]
    rcases mem_unionLattices ha hb hdisj hr with ⟨p, hp, q, hq, rfl⟩ | ⟨hr | hr, hdim, -⟩
    · exact hpairDim p hp q hq
    · exact ⟨fun h => Or.inl ((ha.dimension_iff r hr).mp h), hdim⟩
    · exact ⟨fun h => Or.inr ((hb.dimension_iff r hr).mp h), hdim⟩
  · rw [hfirst, hpairDim p₀ hp₀ q₀ hq₀]
    intro hdim
    have hne : (unionLattices nodes left right).find? (MergePoint.fits fun _ => false) ≠ none := by
      rw [find?_unionLattices ha hb hdisj, find?_raw ha hb hdisj]
      rcases hdim with hdim | hdim
      · obtain ⟨p, hp⟩ := Option.ne_none_iff_exists'.mp (find?_ne_none ha hdim fun _ => false)
        rw [hp]
        cases right.find? (MergePoint.fits fun _ => false) <;> simp
      · obtain ⟨q, hq⟩ := Option.ne_none_iff_exists'.mp (find?_ne_none hb hdim fun _ => false)
        rw [hq]
        cases left.find? (MergePoint.fits fun _ => false) <;> simp
    obtain ⟨r, hr⟩ := Option.ne_none_iff_exists'.mp hne
    exact ⟨r, List.mem_of_find?_eq_some hr, List.find?_some hr⟩
  · intro node hnode hc
    rw [hfirst, (hof p₀ hp₀ q₀ hq₀).mem_iff _ (by simp)]
    rw [hacc] at hnode
    refine (List.mem_append.mp hnode).imp (fun hnode => ?_) fun hnode => ?_
    · simpa [hleft] using ha.covers node hnode hc
    · simpa [hright] using hb.covers node hnode hc
  · intro r hr it hit
    rw [hacc]
    rcases hmem r hr with ⟨p, hp, q, hq, rfl⟩ | hr | hr
    · exact (hof p hp q hq).locators ha hb hp hq it hit
    · obtain ⟨node, hnode, hdense⟩ := ha.locators r hr it hit
      exact ⟨node, List.mem_append_left _ hnode, hdense⟩
    · obtain ⟨node, hnode, hdense⟩ := hb.locators r hr it hit
      exact ⟨node, List.mem_append_right _ hnode, hdense⟩
  · intro r hr node hdense hrlive
    by_cases hpair : ∃ p ∈ left, ∃ q ∈ right, unionPoints p q = r
    · obtain ⟨p, hp, q, hq, rfl⟩ := hpair
      exact (hof p hp q hq).located ha hb hdisj hp hq hdense ((hlive _ _).mp hrlive)
    · rcases (hmem r hr).resolve_left hpair with hr' | hr' <;> rcases (hlive _ _).mp hrlive with h | h
      · exact ha.located r hr' node hdense h
      · exact absurd h.defined (not_defined_left ha hb hdisj hr' hr hpair)
      · exact absurd h.defined (not_defined_right ha hb hdisj hr' hr hpair)
      · exact hb.located r hr' node hdense h
  · intro here
    rw [hdefined, ← ha.defined_iff here, ← hb.defined_iff here]
    have hfind := find?_unionLattices ha hb hdisj here
    rw [find?_raw ha hb hdisj] at hfind
    have hexists : ∀ {lattice : MergeLattice}, (∃ p ∈ lattice, p.fits here = true) ↔
        (lattice.find? (MergePoint.fits here)).isSome = true := fun {lattice} => by
      rw [List.find?_isSome]
    rw [hexists, hexists, hexists, hfind]
    cases left.find? (MergePoint.fits here) <;> cases right.find? (MergePoint.fits here) <;> simp
  · intro here r h r' hr' hfits
    rw [find?_unionLattices ha hb hdisj, find?_raw ha hb hdisj] at h
    -- Each operand's iterators at the other point are among those of its own first point.
    have hleftSub : ∀ p' ∈ left, p'.fits here = true → p'.iterators ⊆ r.iterators := by
      intro p' hp' hfits'
      cases hp : left.find? (MergePoint.fits here) with
      | none => exact absurd hfits' (List.find?_eq_none.mp hp p' hp')
      | some p =>
        have hsub := ha.greatest here p hp p' hp' hfits'
        cases hq : right.find? (MergePoint.fits here) with
        | none =>
          simp only [hp, hq, Option.some.injEq] at h
          exact h ▸ hsub
        | some q =>
          simp only [hp, hq, Option.some.injEq] at h
          subst h
          intro it hit
          rw [unionPoints, mem_deduplicateDimensionIterators]
          exact List.mem_append_left _ (hsub hit)
    have hrightSub : ∀ q' ∈ right, q'.fits here = true → q'.iterators ⊆ r.iterators := by
      intro q' hq' hfits'
      cases hq : right.find? (MergePoint.fits here) with
      | none => exact absurd hfits' (List.find?_eq_none.mp hq q' hq')
      | some q =>
        have hsub := hb.greatest here q hq q' hq' hfits'
        cases hp : left.find? (MergePoint.fits here) with
        | none =>
          simp only [hp, hq, Option.some.injEq] at h
          exact h ▸ hsub
        | some p =>
          simp only [hp, hq, Option.some.injEq] at h
          subst h
          intro it hit
          rw [unionPoints, mem_deduplicateDimensionIterators]
          exact List.mem_append_right _ (hsub hit)
    rcases hmem r' hr' with ⟨p, hp, q, hq, rfl⟩ | hr' | hr'
    · rw [(hof p hp q hq).fits here, Bool.and_eq_true] at hfits
      intro it hit
      rw [unionPoints, mem_deduplicateDimensionIterators, List.mem_append] at hit
      exact hit.elim (fun h => hleftSub p hp hfits.1 h) fun h => hrightSub q hq hfits.2 h
    · exact hleftSub r' hr' hfits
    · exact hrightSub r' hr' hfits
  · intro here r val h
    rw [find?_unionLattices ha hb hdisj, find?_raw ha hb hdisj] at h
    -- An operand without a point that fits is zero, at the point and where all accesses are present.
    have hzero : ∀ {f : IndexExpr V} {lattice : MergeLattice}, IsLattice nodes f lattice →
        lattice.find? (MergePoint.fits here) = none → r.fits here = true →
          f.eval (restrict nodes r.keeps val) = f.eval (restrict nodes here val) := by
      intro f lattice hf hnone hfits
      have hnot : ¬f.Defined (held nodes here) := by
        rw [← hf.defined_iff here]
        rintro ⟨p, hp, hpfits⟩
        exact absurd hpfits (List.find?_eq_none.mp hnone p hp)
      have hnot' : ¬f.Defined (held nodes r.keeps) := fun h => hnot (h.mono fun x _ hx hc =>
        MergePoint.here_of_keeps hfits (hx hc))
      rw [eval_restrict_of_not_defined hnot, eval_restrict_of_not_defined hnot']
    cases hp : left.find? (MergePoint.fits here) with
    | none =>
      cases hq : right.find? (MergePoint.fits here) with
      | none => simp [hp, hq] at h
      | some q =>
        simp only [hp, hq, Option.some.injEq] at h
        subst h
        exact heval _ _ (hzero ha hp (List.find?_some hq)) (hb.agrees here q val hq)
    | some p =>
      cases hq : right.find? (MergePoint.fits here) with
      | none =>
        simp only [hp, hq, Option.some.injEq] at h
        subst h
        exact heval _ _ (ha.agrees here p val hp) (hzero hb hq (List.find?_some hp))
      | some q =>
        simp only [hp, hq, Option.some.injEq] at h
        subst h
        have hpmem := List.mem_of_find?_eq_some hp
        have hqmem := List.mem_of_find?_eq_some hq
        refine heval _ _ ?_ ?_
        · rw [(hof p hpmem q hqmem).eval_left hb hdisj hqmem val, ha.agrees here p val hp]
        · rw [(hof p hpmem q hqmem).eval_right ha hdisj hpmem val, hb.agrees here q val hq]

end

/-! ### Expressions -/

theorem visitBinary_eq {merge : MergeLattice → MergeLattice → MergeLattice} {left right : MergeLattice} (hleft : left ≠ [])
    (hright : right ≠ []) : visitBinary merge left right = merge left right := by
  simp [visitBinary, hleft, hright]

/-- The lattice that is built for an expression whose accesses are nodes of their own. -/
theorem isLattice_visit {e : IndexExpr V} (hnodup : e.accesses.Nodup) : IsLattice nodes e (visit nodes e) := by
  induction e with
  | access node =>
    cases hnode : nodes node with
    | scalar val =>
      have hlattice : visit nodes (.access node) = modeIterationLattice := by simp [visit, hnode]
      rw [hlattice]
      refine isLattice_modeIteration (fun x hx => ?_) (fun x hx => ?_) fun present h => h node (List.mem_singleton_self _)
      · rw [List.mem_singleton.mp hx, hnode]; rfl
      · rw [List.mem_singleton.mp hx, hnode]; rfl
    | dense level modifier vals =>
      have hlattice : visit nodes (.access node) = accessLattice nodes node := by simp [visit, hnode]
      exact hlattice ▸ isLattice_dense (by rw [hnode]; rfl)
    | compressed level parent modifier vals =>
      have hlattice : visit nodes (.access node) = accessLattice nodes node := by simp [visit, hnode]
      exact hlattice ▸ isLattice_compressed (by rw [hnode]; rfl)
  | literal v => exact isLattice_modeIteration (by simp [IndexExpr.accesses]) (by simp [IndexExpr.accesses]) fun _ _ => trivial
  | neg a ih =>
    have h := ih hnodup
    exact { h with
      defined_iff := h.defined_iff
      agrees := fun here p val hp => by rw [IndexExpr.eval, IndexExpr.eval, h.agrees here p val hp] }
  | add a b iha ihb =>
    obtain ⟨hna, hnb, hdisj⟩ := List.nodup_append'.mp hnodup
    have ha := iha hna
    have hb := ihb hnb
    rw [visit, visitBinary_eq ha.ne_nil hb.ne_nil]
    exact isLattice_union ha hb hdisj rfl (fun _ => Iff.rfl) (fun _ _ => Iff.rfl) fun val val' h h' => by
      rw [IndexExpr.eval, IndexExpr.eval, h, h']
  | sub a b iha ihb =>
    obtain ⟨hna, hnb, hdisj⟩ := List.nodup_append'.mp hnodup
    have ha := iha hna
    have hb := ihb hnb
    rw [visit, visitBinary_eq ha.ne_nil hb.ne_nil]
    exact isLattice_union ha hb hdisj rfl (fun _ => Iff.rfl) (fun _ _ => Iff.rfl) fun val val' h h' => by
      rw [IndexExpr.eval, IndexExpr.eval, h, h']
  | mul a b iha ihb =>
    obtain ⟨hna, hnb, hdisj⟩ := List.nodup_append'.mp hnodup
    have ha := iha hna
    have hb := ihb hnb
    rw [visit, visitBinary_eq ha.ne_nil hb.ne_nil]
    exact isLattice_mul ha hb hdisj

end Lower
end Taco
