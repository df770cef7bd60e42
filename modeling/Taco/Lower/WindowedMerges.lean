import Taco.Lower.Coiteration

/-! Merging windowed operands is merging their slices, and operands with index sets are gathered. -/

namespace Taco
namespace Lower

variable {V : Type}

/-! ### Slices -/

/-- A level of one segment. -/
def CompressedLevel.ofList (coords : List ℤ) : CompressedLevel where
  pos p := coords.length * p
  crd p := coords.getD p 0
  pos_mono _ _ h := Nat.mul_le_mul_left coords.length h

def ParentIterator.root : ParentIterator := ⟨true, true, 0, 1⟩

namespace AccessNode

/-- The extracted slice of a windowed operand. -/
def slice : AccessNode V → AccessNode V
  | compressed level getParent (.accessWindow window) vals =>
    let stored := WindowedIterator.slice ⟨level, getParent, window⟩
    compressed (.ofList (stored.map Prod.snd)) .root .unmodified fun pos => vals ((stored.map Prod.fst).getD pos 0)
  | dense level (.accessWindow window) vals =>
    dense ⟨window.getWindowSize.toNat, 0⟩ .unmodified fun pos =>
      vals (level.parentPos * level.width + (pos * window.stride + window.lo)).toNat
  | node => node

variable {node : AccessNode V} {k : ℤ} {n pos : ℕ}

@[simp] theorem slice_isCompressed (node : AccessNode V) : node.slice.isCompressed = node.isCompressed := by
  cases node with
  | scalar val => rfl
  | dense level modifier vals | compressed level getParent modifier vals => cases modifier <;> rfl

theorem slice_modifier (node : AccessNode V) (window : Window) : node.slice.modifier ≠ .accessWindow window := by
  cases node with
  | scalar val => simp [slice, modifier]
  | dense level modifier' vals | compressed level getParent modifier' vals => cases modifier' <;> simp [slice, modifier]

/-- The coordinates of a slice are stored at its positions. -/
theorem slice_stores_iff {level : CompressedLevel} {getParent : ParentIterator} {window : Window} {vals : ℕ → V} :
    (compressed level getParent (.accessWindow window) vals).slice.Stores k pos ↔
      ((WindowedIterator.slice ⟨level, getParent, window⟩)[pos]?).map Prod.snd = some k := by
  rw [slice]
  dsimp only [Stores, positions, CompressedLevel.segment, ParentIterator.unchained, ParentIterator.root,
    CompressedLevel.ofList, CompressedLevel.posBounds, IndexVarIterationModifier.coordinate]
  simp only [List.length_map, Nat.mul_zero, Nat.zero_le, true_and, Bool.or_self, if_true, Nat.zero_add, Nat.mul_one]
  rw [List.getD_eq_getElem?_getD, List.getElem?_map]
  cases h : (WindowedIterator.slice ⟨level, getParent, window⟩)[pos]? with
  | none => 
    simp only [Option.map_none, reduceCtorEq, iff_false, not_and]
    intro hlt
    rw [List.getElem?_eq_none_iff] at h
    omega
  | some x =>
    have hlt := (List.getElem?_eq_some_iff.mp h).1
    simp [hlt, IndexVarIterationModifier.Covers]

/-- The positions of a slice are those that store a coordinate of the window. -/
theorem mem_slice_iff {level : CompressedLevel} {getParent : ParentIterator} {window : Window} {vals : ℕ → V}
    (hnode : (compressed level getParent (.accessWindow window) vals).WellFormed n) :
    (pos, k) ∈ WindowedIterator.slice ⟨level, getParent, window⟩ ↔
      0 ≤ k ∧ (compressed level getParent (.accessWindow window) vals).Stores k pos := by
  obtain ⟨hstart, hstop⟩ := positions_subset (.accessWindow window) vals hnode.1
  have hsize : window.getWindowSize = n := hnode.2
  rw [WindowedIterator.slice, List.mem_map]
  constructor
  · rintro ⟨pos', hpos', heq⟩
    obtain ⟨rfl, rfl⟩ := Prod.mk.inj heq
    obtain ⟨hrange, hcontains⟩ := List.mem_filter.mp hpos'
    obtain ⟨hlo, ⟨m, hm⟩, hlt⟩ := of_decide_eq_true hcontains
    have hdiv : (level.crd pos' - window.lo) / window.stride = m := by
      rw [hm, Int.mul_ediv_cancel_left _ window.stride_pos.ne']
    have hk : 0 ≤ m := hdiv ▸ Int.ediv_nonneg (Int.sub_nonneg_of_le hlo) window.stride_pos.le
    have hmem : (level.segment getParent).1 ≤ pos' ∧ pos' < (level.segment getParent).1 +
        ((level.segment getParent).2 - (level.segment getParent).1) := List.mem_range'_1.mp hrange
    rw [hdiv] at hlt ⊢
    refine ⟨hk, stores_of_crd hnode hk (hsize ▸ hlt) hmem.1 (by omega) ?_⟩
    change level.crd pos' = m * window.stride + window.lo
    rw [Int.mul_comm, ← hm, Int.sub_add_cancel]
  · rintro ⟨hk, ⟨hfirst, hlast⟩, hcrd, hlt⟩
    have hcrd : level.crd pos = k * window.stride + window.lo := hcrd
    have hlt : k < window.getWindowSize := hlt
    have hsub : level.crd pos - window.lo = window.stride * k := by rw [hcrd]; ring
    have hdiv : (level.crd pos - window.lo) / window.stride = k := by
      rw [hsub, Int.mul_ediv_cancel_left _ window.stride_pos.ne']
    have hlo : window.lo ≤ level.crd pos := by
      rw [hcrd]
      exact Int.le_add_of_nonneg_left (Int.mul_nonneg hk window.stride_pos.le)
    have hrange : pos ∈ List.range' (level.segment getParent).1 ((level.segment getParent).2 - (level.segment getParent).1) := by
      rw [List.mem_range'_1]
      have hfirst := hstart.trans hfirst
      omega
    exact ⟨pos, List.mem_filter.mpr ⟨hrange, decide_eq_true ⟨hlo, ⟨k, hsub⟩, hdiv ▸ hlt⟩⟩, Prod.ext rfl hdiv⟩

/-- The slice stores what the window contains. -/
theorem exists_slice_stores_iff (hnode : node.WellFormed n) (hk : 0 ≤ k) :
    (∃ pos, node.slice.Stores k pos) ↔ ∃ pos, node.Stores k pos := by
  cases node with
  | scalar val => exact Iff.rfl
  | dense level modifier vals =>
    cases modifier <;> exact iff_of_false (fun ⟨_, h⟩ => by cases h) fun ⟨_, h⟩ => by cases h
  | compressed level getParent modifier vals =>
    cases modifier with
    | unmodified | indexSet set => exact Iff.rfl
    | accessWindow window =>
      simp only [slice_stores_iff]
      constructor
      · rintro ⟨pos, hpos⟩
        obtain ⟨x, hx, rfl⟩ := Option.map_eq_some_iff.mp hpos
        exact ⟨x.1, ((mem_slice_iff hnode).mp (List.mem_of_getElem? hx)).2⟩
      · rintro ⟨pos, hpos⟩
        obtain ⟨i, hi⟩ := List.getElem?_of_mem ((mem_slice_iff hnode).mpr ⟨hk, hpos⟩)
        exact ⟨i, by rw [hi]; rfl⟩

theorem slice_pairwise {level : CompressedLevel} {getParent : ParentIterator} {window : Window} {vals : ℕ → V}
    (hnode : (compressed level getParent (.accessWindow window) vals).WellFormed n) :
    (WindowedIterator.slice ⟨level, getParent, window⟩).Pairwise fun x y => x.2 < y.2 := by
  have hsorted : (WindowedIterator.slice ⟨level, getParent, window⟩).Pairwise fun x y => x.1 < y.1 := by
    rw [WindowedIterator.slice, List.pairwise_map]
    exact (List.pairwise_lt_range' (s := _) (n := _)).filter _
  refine hsorted.imp_of_mem fun hx hy hlt => ?_
  exact (((mem_slice_iff hnode).mp hx).2.lt_iff hnode ((mem_slice_iff hnode).mp hy).2).mp hlt

theorem WellFormed.slice (hnode : node.WellFormed n) : node.slice.WellFormed n := by
  cases node with
  | scalar val => trivial
  | dense level modifier vals =>
    cases modifier with
    | unmodified => trivial
    | accessWindow window => trivial
    | indexSet set => exact hnode
  | compressed level getParent modifier vals =>
    cases modifier with
    | unmodified | indexSet set => exact hnode
    | accessWindow window =>
      have hpair := slice_pairwise hnode
      have hlen : ((CompressedLevel.ofList ((WindowedIterator.slice ⟨level, getParent, window⟩).map Prod.snd)).segment
          .root) = (0, (WindowedIterator.slice ⟨level, getParent, window⟩).length) := by
        simp [CompressedLevel.segment, ParentIterator.unchained, ParentIterator.root, CompressedLevel.ofList,
          CompressedLevel.posBounds]
      have hcrd : ∀ pos (h : pos < (WindowedIterator.slice ⟨level, getParent, window⟩).length),
          (CompressedLevel.ofList ((WindowedIterator.slice ⟨level, getParent, window⟩).map Prod.snd)).crd pos =
            (WindowedIterator.slice ⟨level, getParent, window⟩)[pos].2 := fun pos h => by
        simp [CompressedLevel.ofList, h]
      dsimp only [AccessNode.slice, WellFormed]
      rw [hlen]
      refine ⟨fun p hp q hq hlt => ?_, fun pos _ hpos => ?_⟩
      · rw [hcrd p hp.2, hcrd q hq.2]
        exact List.pairwise_iff_getElem.mp hpair p q hp.2 hq.2 hlt
      · rw [hcrd pos hpos]
        obtain ⟨hk, hstores⟩ := (mem_slice_iff hnode).mp (List.getElem_mem hpos)
        exact ⟨hk, hstores.lt_dimension hnode⟩

/-- Within the dimension the slice has the components of the window. -/
theorem slice_component [Zero V] (hnode : node.WellFormed n) (hk : 0 ≤ k) (hlt : k < n) :
    node.slice.component k = node.component k := by
  cases hn : node with
  | scalar val => rfl
  | dense level modifier vals =>
    cases modifier with
    | unmodified | indexSet set => rfl
    | accessWindow window =>
      have hcast : (k.toNat : ℤ) = k := Int.toNat_of_nonneg hk
      change vals (_ + (((0 : ℕ) * _ + k).toNat * window.stride + window.lo)).toNat = vals _
      rw [Nat.cast_zero, Int.zero_mul, Int.zero_add, hcast]
      rfl
  | compressed level getParent modifier vals =>
    cases modifier with
    | unmodified | indexSet set => rfl
    | accessWindow window =>
      rw [hn] at hnode
      by_cases hstored : ∃ pos, (compressed level getParent (.accessWindow window) vals).Stores k pos
      · obtain ⟨i, hi⟩ := (exists_slice_stores_iff hnode hk).mpr hstored
        rw [hi.component_eq hnode.slice]
        obtain ⟨⟨pos, k'⟩, hx, rfl⟩ := Option.map_eq_some_iff.mp (slice_stores_iff.mp hi)
        rw [((mem_slice_iff hnode).mp (List.mem_of_getElem? hx)).2.component_eq hnode]
        change vals (((WindowedIterator.slice ⟨level, getParent, window⟩).map Prod.fst).getD i 0) = vals pos
        rw [List.getD_eq_getElem?_getD, List.getElem?_map, hx]
        rfl
      · have hnot := mt (exists_slice_stores_iff hnode hk).mp hstored
        rw [not_exists] at hstored hnot
        rw [component_eq_zero hnode rfl hk hlt hstored, component_eq_zero hnode.slice rfl hk hlt hnot]

end AccessNode

/-! ### Merges -/

namespace Forall

variable (F : Forall V)

/-- The forall over the extracted slices of the windowed operands. -/
def slice : Forall V where
  dimension := F.dimension
  nodes node := (F.nodes node).slice
  expr := F.expr
  nodup := F.nodup
  wellFormed node hnode := (F.wellFormed node hnode).slice

variable [Ring V]

/-- No operand stores a coordinate of the loop before its start; without a dimension iterator, at most such that nothing is
    left of the expression there. -/
def StartsInWindow : Prop :=
  if .dimension ∈ F.lattice.iterators then ∀ node ∈ F.expr.accesses, ∀ k pos, (F.nodes node).Stores k pos → 0 ≤ k
  else ∀ k < 0, ¬F.expr.Defined (held F.nodes (F.hereAt k))

variable {F} {s : State} {k : ℤ} {out : List (ℤ × V)}

theorem visited_slice (hk : 0 ≤ k) (hlt : k < F.dimension) : F.slice.visited k = F.visited k := by
  have hhere : ∀ node ∈ F.expr.accesses, F.slice.hereAt k node = F.hereAt k node := fun node hnode => by
    rw [Bool.eq_iff_iff, hereAt_iff, hereAt_iff]
    exact AccessNode.exists_slice_stores_iff (F.wellFormed node hnode) hk
  have hdefined : F.slice.expr.Defined (held F.slice.nodes (F.slice.hereAt k)) ↔
      F.expr.Defined (held F.nodes (F.hereAt k)) := by
    refine IndexExpr.defined_congr fun node hnode => ?_
    rw [held, held, hhere node hnode]
    exact imp_congr_left (by rw [slice, AccessNode.slice_isCompressed])
  have heval : F.slice.expr.eval (restrict F.slice.nodes (F.slice.hereAt k) fun node => (F.slice.nodes node).component k) =
      F.expr.eval (restrict F.nodes (F.hereAt k) fun node => (F.nodes node).component k) := by
    refine IndexExpr.eval_congr fun node hnode => ?_
    rw [restrict, restrict, hhere node hnode]
    simp only [slice, AccessNode.slice_isCompressed, AccessNode.slice_component (F.wellFormed node hnode) hk hlt]
  by_cases h : F.expr.Defined (held F.nodes (F.hereAt k))
  · rw [visited, visited, if_pos h, if_pos (hdefined.mpr h), heval]
  · rw [visited, visited, if_neg h, if_neg (mt hdefined.mp h)]

omit [Ring V] in
theorem exists_le_of_stores (node : AccessNode V) {n : ℕ} (hnode : node.WellFormed n) :
    ∃ c : ℤ, ∀ k pos, node.Stores k pos → c ≤ k := by
  by_cases h : ∃ k pos, node.Stores k pos
  · -- The least position has the least coordinate.
    obtain ⟨k, pos, hpos⟩ := h
    induction pos using Nat.strong_induction_on generalizing k with
    | h pos ih =>
      by_cases hless : ∃ k' pos', pos' < pos ∧ node.Stores k' pos'
      · obtain ⟨k', pos', hlt, hpos'⟩ := hless
        exact ih pos' hlt k' hpos'
      · refine ⟨k, fun k' pos' hpos' => ?_⟩
        push Not at hless
        refine (hpos.le_iff hnode hpos').mp (not_lt.mp fun hlt => hless k' pos' hlt hpos')
  · push Not at h
    exact ⟨0, fun k pos hpos => absurd hpos (h k pos)⟩

/-- Without a dimension iterator the loops may start before the dimension. -/
theorem outputs_trace_before (hdim : .dimension ∉ F.lattice.iterators) (s : State) :
    ∃ c ≤ 0, (∀ node ∈ F.expr.accesses, ∀ k pos, (F.nodes node).Stores k pos → c ≤ k) ∧
      ∃ out, F.Outputs s out ∧ Trace F.visited c F.dimension out := by
  have hbound : ∀ nodes : List ℕ, nodes ⊆ F.expr.accesses →
      ∃ c ≤ (0 : ℤ), ∀ node ∈ nodes, ∀ k pos, (F.nodes node).Stores k pos → c ≤ k := by
    intro nodes
    induction nodes with
    | nil => exact fun _ => ⟨0, le_rfl, by simp⟩
    | cons node nodes ih =>
      intro hsub
      obtain ⟨c, hc, hall⟩ := ih fun x hx => hsub (List.mem_cons_of_mem _ hx)
      obtain ⟨c', hc'⟩ := exists_le_of_stores (F.nodes node) (F.wellFormed node (hsub List.mem_cons_self))
      refine ⟨min c c', (min_le_left c c').trans hc, fun node' hnode' k pos hpos => ?_⟩
      rcases List.mem_cons.mp hnode' with rfl | hnode'
      · exact (min_le_right c c').trans (hc' k pos hpos)
      · exact (min_le_left c c').trans (hall node' hnode' k pos hpos)
  obtain ⟨c, hc, hall⟩ := hbound F.expr.accesses fun _ => id
  exact ⟨c, hc, hall, outputs_trace F c (hc.trans (Int.natCast_nonneg _)) hall (fun h => absurd h hdim) s⟩

/-- Under the condition the coordinates of the output are those of the dimension. -/
theorem outputs_trace_of_startsInWindow (h : F.StartsInWindow) (s : State) :
    ∃ out, F.Outputs s out ∧ Trace F.visited 0 F.dimension out := by
  rw [StartsInWindow] at h
  split_ifs at h with hdim
  · exact outputs_trace F 0 (Int.natCast_nonneg _) h (fun _ => rfl) s
  · obtain ⟨c, hc, -, out, hout, htrace⟩ := outputs_trace_before hdim s
    have hvisited : ∀ k < 0, F.visited k = none := fun k hk => by rw [visited, if_neg (h k hk)]
    refine ⟨out, hout, htrace.sorted, fun k v => (htrace.mem_iff k v).trans ⟨fun hk => ⟨⟨?_, hk.1.2⟩, hk.2⟩, fun hk =>
      ⟨⟨hc.trans hk.1.1, hk.1.2⟩, hk.2⟩⟩⟩
    by_contra hneg
    rw [hvisited k (not_le.mp hneg)] at hk
    cases hk.2

omit [Ring V] in
/-- The search for the start of the window passes what is before it, in a segment that is not chained. -/
theorem nonneg_of_unchained {level : CompressedLevel} {getParent : ParentIterator} {modifier : IndexVarIterationModifier}
    {vals : ℕ → V} {n pos : ℕ} (hnode : (AccessNode.compressed level getParent modifier vals).WellFormed n)
    (hunchained : getParent.unchained = true) (h : (AccessNode.compressed level getParent modifier vals).Stores k pos) : 0 ≤ k := by
  cases modifier with
  | unmodified | indexSet set => exact nonneg_of_stores hnode (by simp [AccessNode.modifier]) h
  | accessWindow window =>
    have hle : (level.segment getParent).1 ≤ (level.segment getParent).2 := by
      rw [CompressedLevel.segment, if_pos hunchained]
      exact level.pos_mono (Nat.le_succ _)
    have hsplits := taco_binarySearchAfter_splitsAt hle hnode.1 window.lo
    obtain ⟨⟨hstart, hstop⟩, hcrd, -⟩ := h
    rw [AccessNode.positions] at hstart hstop
    simp only [hunchained, if_true] at hstart hstop
    have hlo := hsplits.above pos hstart hstop
    have hcrd : level.crd pos = k * window.stride + window.lo := hcrd
    rw [hcrd] at hlo
    exact nonneg_of_mul_nonneg_left (by omega) window.stride_pos

/-- Below the root and unique parents all operands start in their windows. -/
theorem startsInWindow_of_unchained (h : ∀ node ∈ F.expr.accesses, ∀ level getParent modifier vals,
    F.nodes node = .compressed level getParent modifier vals → getParent.unchained = true) : F.StartsInWindow := by
  have hnonneg : ∀ node ∈ F.expr.accesses, ∀ k pos, (F.nodes node).Stores k pos → 0 ≤ k := by
    intro node hnode k pos hpos
    have hwell := F.wellFormed node hnode
    cases hn : F.nodes node with
    | scalar val | dense level modifier vals => rw [hn] at hpos; cases hpos
    | compressed level getParent modifier vals =>
      rw [hn] at hpos hwell
      exact nonneg_of_unchained hwell (h node hnode level getParent modifier vals hn) hpos
  rw [StartsInWindow]
  split_ifs with hdim
  · exact hnonneg
  · intro k hk hdefined
    obtain ⟨r, hr, hfits⟩ := (F.isLattice.defined_iff _).mpr hdefined
    obtain ⟨it, hit⟩ := List.exists_mem_of_ne_nil _ (F.isLattice.iterators_ne_nil r hr)
    cases hnode : it.modeAccess with
    | none =>
      cases it with
      | dimension => exact absurd ((F.isLattice.dimension_iff r hr).mp hit) hdim
      | level node | indexSet node => cases hnode
    | some node =>
      have hlevel := (compressed_of_mem hr hit hnode).2.2
      obtain ⟨pos, hpos⟩ := hereAt_iff.mp (MergePoint.fits_iff.mp hfits _ hlevel)
      exact absurd (hnonneg node (F.isLattice.accesses r hr _ hlevel node rfl) k pos hpos) (not_le.mpr hk)

/-- Without a dimension iterator the condition is necessary for an output within the dimension. -/
theorem startsInWindow_of_within (hdim : .dimension ∉ F.lattice.iterators) (hout : F.Outputs s out)
    (hwithin : ∀ x ∈ out, 0 ≤ x.1) : F.StartsInWindow := by
  rw [StartsInWindow, if_neg hdim]
  intro k hk hdefined
  obtain ⟨c, hc, hall, out', hout', htrace⟩ := outputs_trace_before hdim s
  obtain rfl := hout.unique hout'
  have hck : c ≤ k := by
    have hF := F.isLattice
    obtain ⟨r, hr, hfits⟩ := (hF.defined_iff _).mpr hdefined
    obtain ⟨it, hit⟩ := List.exists_mem_of_ne_nil _ (hF.iterators_ne_nil r hr)
    cases hnode : it.modeAccess with
    | none =>
      cases it with
      | dimension => exact absurd ((hF.dimension_iff r hr).mp hit) hdim
      | level node | indexSet node => cases hnode
    | some node =>
      have hlevel := (compressed_of_mem hr hit hnode).2.2
      obtain ⟨pos, hpos⟩ := hereAt_iff.mp (MergePoint.fits_iff.mp hfits _ hlevel)
      exact hall node (hF.accesses r hr _ hlevel node rfl) k pos hpos
  have hmem := (htrace.mem_iff k _).mpr ⟨⟨hck, hk.trans_le (Int.natCast_nonneg _)⟩, if_pos hdefined⟩
  exact absurd (hwithin _ hmem) (not_le.mpr hk)

end Forall

variable [Ring V]

/-- The loops on windowed operands have the output of the loops on the extracted slices, each coordinate once, if no operand
    stores a coordinate of the loop before its start; without a dimension iterator only if nothing is left of the expression
    before the start. -/
theorem windowedMerge_exact (F : Forall V) (s : State) :
    (F.StartsInWindow → ∃ out, F.Outputs s out ∧ F.slice.Outputs s out ∧ F.Computes out) ∧
      (.dimension ∉ F.lattice.iterators → (∃ out, F.Outputs s out ∧ F.slice.Outputs s out ∧ F.Computes out) →
        F.StartsInWindow) := by
  constructor
  · intro h
    obtain ⟨out, hout, htrace⟩ := Forall.outputs_trace_of_startsInWindow h s
    have hfirst : ∀ node ∈ F.slice.expr.accesses, ∀ k pos, (F.slice.nodes node).Stores k pos → 0 ≤ k := fun node hnode k pos h =>
      Forall.nonneg_of_stores (F.slice.wellFormed node hnode) (AccessNode.slice_modifier (F.nodes node)) h
    obtain ⟨out', hout', htrace'⟩ := Forall.outputs_trace F.slice 0 (Int.natCast_nonneg _) hfirst (fun _ => rfl) s
    have hsame := htrace.unique (htrace'.congr fun k hk hlt => Forall.visited_slice hk hlt)
    subst hsame
    exact ⟨out, hout, hout', Forall.computes_of_trace htrace⟩
  · rintro hdim ⟨out, hout, -, hcomputes⟩
    exact Forall.startsInWindow_of_within hdim hout fun x hx => (hcomputes.within x hx).1

/-- The loops on operands that are accessed through index sets compute the expression on the components at the coordinates of
    the sets, under the same condition on the windowed operands that they are merged with. -/
theorem indexSetMerge_exact (F : Forall V) (s : State) :
    (F.StartsInWindow → ∃ out, F.Outputs s out ∧ F.Computes out) ∧
      (.dimension ∉ F.lattice.iterators → (∃ out, F.Outputs s out ∧ F.Computes out) → F.StartsInWindow) := by
  refine ⟨fun h => ?_, fun hdim ⟨out, hout, hcomputes⟩ => ?_⟩
  · obtain ⟨out, hout, htrace⟩ := Forall.outputs_trace_of_startsInWindow h s
    exact ⟨out, hout, Forall.computes_of_trace htrace⟩
  · exact Forall.startsInWindow_of_within hdim hout fun x hx => (hcomputes.within x hx).1

/-! ### Windows below parents with duplicates -/

/-- Two coordinates below a parent with two positions, accessed through a window that starts between them, times a vector
    plus a dense operand. -/
def chainedWindow (modifier : IndexVarIterationModifier) (hmodifier : modifier.Spans 2) : Forall ℤ where
  dimension := 2
  nodes
    | 0 => .compressed ⟨id, fun p => p + 1, fun _ _ h => h⟩ ⟨false, false, 0, 2⟩
        (.accessWindow ⟨2, 4, 1, by decide, by decide, by decide⟩) fun p => 10 * (p + 1)
    | 1 => .compressed (.ofList [0]) .root .unmodified fun _ => 3
    | _ => .dense ⟨4, 0⟩ modifier fun p => 100 * (p + 1)
  expr := .add (.mul (.access 0) (.access 1)) (.access 2)
  nodup := sparseTimesSparsePlusDense.nodup
  wellFormed := by
    have h₀ : StrictMonoOn (fun p : ℕ => (p : ℤ) + 1) (Set.Ico 0 2) := fun p _ q _ hlt => by
      have : (p : ℤ) < q := Int.ofNat_lt.mpr hlt
      simpa using this
    simp only [IndexExpr.accesses, List.cons_append, List.nil_append, List.forall_mem_cons]
    refine ⟨⟨h₀, rfl⟩, ⟨?_, ?_⟩, hmodifier, by simp⟩
    · intro p hp q hq hlt
      have hq : q = 0 := Nat.lt_one_iff.mp hq.2
      exact absurd (hq ▸ hlt) (Nat.not_lt_zero p)
    · intro pos _ hpos
      obtain rfl : pos = 0 := Nat.lt_one_iff.mp hpos
      decide

/-- The iterator that starts before its window never advances, and what is stored in the window is lost. -/
theorem windowedMerge_loses : ¬∃ out, (chainedWindow .unmodified trivial).Outputs ⟨fun _ => 0, fun _ => 0⟩ out ∧
    (chainedWindow .unmodified trivial).slice.Outputs ⟨fun _ => 0, fun _ => 0⟩ out ∧
      (chainedWindow .unmodified trivial).Computes out := by
  rintro ⟨out, hout, hslice, -⟩
  have h := hout.unique (Forall.outputs_of_run 9 [(0, 100), (1, 200)] (by decide +kernel) (by decide +kernel))
  have h' := hslice.unique
    (Forall.outputs_of_run 9 [(0, 160), (1, 200)] (by decide +kernel) (by decide +kernel))
  rw [h'] at h
  revert h
  decide

/-- The same with a dense operand that is accessed at 0 and 2. -/
theorem indexSetMerge_loses : ¬∃ out,
    (chainedWindow (.indexSet ⟨2, fun p => 2 * p, fun p _ q _ hlt => by dsimp only; omega⟩) rfl).Outputs
        ⟨fun _ => 0, fun _ => 0⟩ out ∧
      (chainedWindow (.indexSet ⟨2, fun p => 2 * p, fun p _ q _ hlt => by dsimp only; omega⟩) rfl).Computes out := by
  rintro ⟨out, hout, hcomputes⟩
  have h := hout.unique (Forall.outputs_of_run 9 [(0, 100), (1, 300)] (by decide +kernel) (by decide +kernel))
  subst h
  have hvalue := hcomputes.value 0 le_rfl (by decide)
  revert hvalue
  decide +kernel

end Lower
end Taco
