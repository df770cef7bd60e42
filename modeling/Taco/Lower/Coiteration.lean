import Taco.Lower.MergeLoopsExact

/-! Co-iteration is exact: the emitted loops compute the expression on the dense expansions of the operands. -/

namespace Taco
namespace Lower

open Forall (hereAt_iff)

variable {V : Type}

theorem Window.project_eq_iff (window : Window) {coord k : ℤ} (h : window.stride ∣ coord - window.lo) :
    window.projectWindowedPositionToCanonicalSpace coord = k ↔ coord = k * window.stride + window.lo := by
  obtain ⟨m, hm⟩ := h
  rw [Window.projectWindowedPositionToCanonicalSpace, hm, Int.mul_tdiv_cancel_left _ window.stride_pos.ne']
  constructor
  · rintro rfl
    rw [Int.mul_comm, ← hm, Int.sub_add_cancel]
  · intro hcoord
    rw [hcoord, Int.add_sub_cancel, Int.mul_comm] at hm
    exact (Int.eq_of_mul_eq_mul_left window.stride_pos.ne' hm).symm

/-! ### Loops over one iterator -/

section

variable [Ring V] {F : Forall V} {point : MergePoint} {rest : MergeLattice} {s : State} {k c : ℤ} {node : ℕ}

/-- The body where all operands with a compressed level store the coordinate. -/
theorem visited_eq_of_reads {val : ℕ → V} (hhere : ∀ a ∈ F.expr.accesses, (F.nodes a).isCompressed = true → F.hereAt k a = true)
    (hval : ∀ a ∈ F.expr.accesses, val a = (F.nodes a).component k) : F.visited k = some (F.expr.eval val) := by
  have hheld : ∀ a ∈ F.expr.accesses, held F.nodes (F.hereAt k) a := hhere
  rw [Forall.visited, if_pos (IndexExpr.defined_of_forall hheld)]
  refine congrArg some (IndexExpr.eval_congr fun a ha => ?_)
  rw [hval a ha, restrict]
  split_ifs with h
  · rw [Bool.and_eq_true, Bool.not_eq_true'] at h
    rw [hhere a ha h.1] at h
    cases h.2
  · rfl

/-- What is read besides the compressed levels: scalars, and the dense levels that are located. -/
theorem read_component (hcons : F.lattice = point :: rest) (ha : node ∈ F.expr.accesses)
    (hc : (F.nodes node).isCompressed = false) : (declLocatePosVars F.nodes point.locators (s.setCoord .dimension k)).read F.nodes node =
      (F.nodes node).component k := by
  rw [State.read]
  cases hkind : F.nodes node with
  | scalar val => rfl
  | compressed level getParent modifier vals => rw [hkind] at hc; cases hc
  | dense level modifier vals =>
    have hF := F.isLattice
    have hkeeps : ∀ a ∈ F.expr.accesses, held F.nodes point.keeps a := fun a ha hc => MergePoint.keeps_iff.mpr (by
      have hmem := hF.covers a ha hc
      rwa [hcons, iterators_cons] at hmem)
    have hlocator := hF.located point (hcons ▸ List.mem_cons_self) node (by rw [hkind]; rfl) (IndexExpr.live_of_forall hkeeps ha)
    rw [declLocatePosVars_posVar_of_mem hlocator, locate, hkind, State.setCoord_coordVar, if_pos rfl]
    cases modifier <;> rfl

theorem not_isCompressed (hcons : F.lattice = point :: rest) (hnot : .level node ∉ point.iterators) (ha : node ∈ F.expr.accesses) :
    (F.nodes node).isCompressed = false := by
  rw [← Bool.not_eq_true]
  intro hc
  have hmem := F.isLattice.covers node ha hc
  rw [hcons, iterators_cons] at hmem
  exact hnot hmem

theorem lowerForallDimension_trace (hcons : F.lattice = point :: rest) (hiterators : point.iterators = [.dimension]) (s : State) :
    Trace F.visited 0 F.dimension (F.lowerForallDimension point.locators s) := by
  have hvisited : ∀ k, F.visited k = some (F.lowerForallBody point.locators k s).2 := fun k => by
    have hnot : ∀ a ∈ F.expr.accesses, (F.nodes a).isCompressed = false := fun a ha =>
      not_isCompressed hcons (by rw [hiterators]; simp) ha
    refine visited_eq_of_reads (fun a ha hc => ?_) fun a ha => read_component hcons ha (hnot a ha)
    rw [hnot a ha] at hc
    cases hc
  refine ⟨?_, fun k v => ?_⟩
  · rw [Forall.lowerForallDimension, List.pairwise_map]
    exact List.pairwise_lt_range.imp fun hlt => Int.ofNat_lt.mpr hlt
  · rw [Forall.lowerForallDimension, List.mem_map]
    constructor
    · rintro ⟨i, hi, heq⟩
      obtain ⟨rfl, rfl⟩ := Prod.mk.inj heq
      exact ⟨⟨Int.natCast_nonneg i, Int.ofNat_lt.mpr (List.mem_range.mp hi)⟩, hvisited _⟩
    · rintro ⟨⟨hk, hlt⟩, hv⟩
      refine ⟨k.toNat, List.mem_range.mpr (by omega), ?_⟩
      have hcast : (k.toNat : ℤ) = k := Int.toNat_of_nonneg hk
      rw [hcast, Forall.lowerForallBody]
      exact congrArg (Prod.mk k) (Option.some.inj ((hvisited k).symm.trans hv))

omit [Ring V] in
/-- The position loop executes the positions that store a coordinate of the loop, in order. -/
theorem positionsOf_spec (hwell : (F.nodes node).WellFormed F.dimension) (hset : (Iterator.level node).hasIndexSet F.nodes = false) :
    (∀ x, x ∈ F.positionsOf node ↔ (F.nodes node).Stores x.2 x.1) ∧ (F.positionsOf node).Pairwise fun x y => x.1 < y.1 := by
  cases hkind : F.nodes node with
  | scalar val | dense level modifier vals => simp [Forall.positionsOf, hkind, AccessNode.Stores]
  | compressed level getParent modifier vals =>
    rw [hkind] at hwell
    cases modifier with
    | indexSet set => simp [Iterator.hasIndexSet, hkind, AccessNode.modifier] at hset
    | unmodified =>
      simp only [Forall.positionsOf, hkind]
      refine ⟨fun x => ?_, ?_⟩
      · rw [List.mem_map]
        constructor
        · rintro ⟨pos, hpos, rfl⟩
          rw [List.mem_range'_1] at hpos
          exact ⟨⟨hpos.1, by have := hpos.2; dsimp only [AccessNode.positions]; omega⟩, rfl, trivial⟩
        · intro hx
          have hstart : (level.segment getParent).1 ≤ x.1 := hx.1.1
          have hstop : x.1 < (level.segment getParent).2 := hx.1.2
          have hcrd : level.crd x.1 = x.2 := hx.2.1
          exact ⟨x.1, List.mem_range'_1.mpr ⟨hstart, by omega⟩, Prod.ext rfl hcrd⟩
      · rw [List.pairwise_map]
        exact List.pairwise_lt_range'
    | accessWindow window =>
      have hbounds : (WindowedIterator.mk level getParent window).positionBounds .notParallel =
          (AccessNode.compressed level getParent (.accessWindow window) vals).positions := by
        rw [WindowedIterator.positionBounds, AccessNode.positions]
        rfl
      obtain ⟨hstart, hstop⟩ := AccessNode.positions_subset (.accessWindow window) vals hwell.1
      have hsorted : StrictMonoOn (WindowedIterator.mk level getParent window).level.crd
          (Set.Ico (WindowedIterator.mk level getParent window).segment.1 (WindowedIterator.mk level getParent window).segment.2) :=
        hwell.1
      have hpair := WindowedIterator.pairwise_segment hsorted hstart hstop.le
      simp only [Forall.positionsOf, hkind, WindowedIterator.lowerForallPosition, hbounds]
      rw [WindowedIterator.positionLoop_notParallel _ hpair]
      refine ⟨fun x => ?_, ?_⟩
      · rw [List.mem_map]
        constructor
        · rintro ⟨pos, hpos, rfl⟩
          obtain ⟨hrange, hkeep⟩ := List.mem_filter.mp hpos
          obtain ⟨hstride, hlt⟩ := of_decide_eq_true hkeep
          rw [List.mem_range'_1] at hrange
          have hend : pos < (AccessNode.compressed level getParent (.accessWindow window) vals).positions.2 := by omega
          refine ⟨⟨hrange.1, hend⟩, ?_, hlt⟩
          exact (window.project_eq_iff hstride).mp rfl
        · intro hx
          have hcrd : level.crd x.1 = x.2 * window.stride + window.lo := hx.2.1
          have hstride : window.stride ∣ level.crd x.1 - window.lo := ⟨x.2, by rw [hcrd]; ring⟩
          have hproject := (window.project_eq_iff hstride).mpr hcrd
          have hlt : x.2 < window.getWindowSize := hx.2.2
          have hrange := hx.1
          refine ⟨x.1, List.mem_filter.mpr ⟨List.mem_range'_1.mpr ⟨hrange.1, by omega⟩, decide_eq_true ⟨hstride, ?_⟩⟩, ?_⟩
          · exact hproject ▸ hlt
          · exact Prod.ext rfl hproject
      · rw [List.pairwise_map]
        exact (List.pairwise_lt_range' (s := _) (n := _)).filter _

theorem lowerForallPosition_trace (hcons : F.lattice = point :: rest) (hiterators : point.iterators = [.level node]) (c : ℤ)
    (hfirst : ∀ k pos, (F.nodes node).Stores k pos → c ≤ k) (s : State) :
    Trace F.visited c F.dimension (F.lowerForallPosition node point.locators s) := by
  have hF := F.isLattice
  have hpoint : point ∈ F.lattice := hcons ▸ List.mem_cons_self
  have hmem : .level node ∈ point.iterators := by rw [hiterators]; exact List.mem_singleton_self _
  obtain ⟨hc, hwell, -⟩ := compressed_of_mem hpoint hmem rfl
  have hset : (Iterator.level node).hasIndexSet F.nodes = false := by
    rw [← Bool.not_eq_true]
    intro hset
    have hindexSet := (hF.indexSet_iff point hpoint node).mpr ⟨hmem, hset⟩
    simp [hiterators] at hindexSet
  obtain ⟨hmemIff, hsorted⟩ := positionsOf_spec hwell hset
  have hcompressed : ∀ a ∈ F.expr.accesses, (F.nodes a).isCompressed = true → a = node := fun a ha hca => by
    have hcovers := hF.covers a ha hca
    rw [hcons, iterators_cons, hiterators, List.mem_singleton] at hcovers
    exact Iterator.level.inj hcovers
  have hlocator : .level node ∉ point.locators := fun hmem => by
    obtain ⟨node', -, hdense, heq⟩ := hF.locators point hpoint _ hmem
    obtain rfl := Iterator.level.inj heq
    cases hn : F.nodes node <;> simp_all [AccessNode.isCompressed, AccessNode.isDense]
  have hvisited : ∀ k pos, (F.nodes node).Stores k pos →
      F.visited k = some (F.lowerForallBody point.locators k (s.setPos (.level node) pos)).2 := by
    intro k pos hpos
    refine visited_eq_of_reads (fun a ha hca => hcompressed a ha hca ▸ hereAt_iff.mpr ⟨pos, hpos⟩) fun a ha => ?_
    cases hca : (F.nodes a).isCompressed with
    | false => exact read_component hcons ha hca
    | true =>
      obtain rfl := hcompressed a ha hca
      rw [State.read, declLocatePosVars_posVar_of_notMem hlocator, hpos.component_eq hwell]
      simp
  have hvisitedIff : ∀ k v, F.visited k = some v → (∃ pos, (F.nodes node).Stores k pos) := by
    intro k v hv
    rw [Forall.visited] at hv
    split_ifs at hv with hdefined
    obtain ⟨r, hr, hfits⟩ := (hF.defined_iff _).mpr hdefined
    have hlevel : .level node ∈ r.iterators := by
      obtain ⟨it, hit⟩ := List.exists_mem_of_ne_nil _ (hF.iterators_ne_nil r hr)
      have hfirst := Forall.mem_lattice_iterators hr hit
      rw [hcons, iterators_cons, hiterators, List.mem_singleton] at hfirst
      exact hfirst ▸ hit
    exact hereAt_iff.mp (MergePoint.fits_iff.mp hfits _ hlevel)
  refine ⟨?_, fun k v => ?_⟩
  · rw [Forall.lowerForallPosition, List.pairwise_map]
    refine hsorted.imp_of_mem fun hx hy hlt => ?_
    exact (((hmemIff _).mp hx).lt_iff hwell ((hmemIff _).mp hy)).mp hlt
  · rw [Forall.lowerForallPosition, List.mem_map]
    constructor
    · rintro ⟨⟨pos, k'⟩, hx, heq⟩
      obtain ⟨rfl, rfl⟩ := Prod.mk.inj heq
      have hpos := (hmemIff _).mp hx
      exact ⟨⟨hfirst _ _ hpos, hpos.lt_dimension hwell⟩, hvisited _ _ hpos⟩
    · rintro ⟨-, hv⟩
      obtain ⟨pos, hpos⟩ := hvisitedIff k v hv
      refine ⟨(pos, k), (hmemIff _).mpr hpos, ?_⟩
      exact congrArg (Prod.mk k) (Option.some.inj ((hvisited k pos hpos).symm.trans hv))

end

/-! ### The loops of a forall -/

namespace Forall

variable [Ring V] (F : Forall V)

/-- The loops of the forall, and the merge loops that are emitted when it is not lowered to a loop over one iterator, end
    with an output. -/
def Outputs (s : State) (out : List (ℤ × V)) : Prop := ∃ bound, ∀ fuel, bound ≤ fuel →
  F.runForall fuel s = some out ∧ (F.runMergeLattice fuel s).map Prod.fst = some out

/-- The output has the values of the expression: coordinates of the dimension in increasing order, and zeros elsewhere. -/
structure Computes (out : List (ℤ × V)) : Prop where
  increasing : out.Pairwise fun x y => x.1 < y.1
  within : ∀ x ∈ out, 0 ≤ x.1 ∧ x.1 < F.dimension
  value : ∀ k : ℤ, 0 ≤ k → k < F.dimension → (out.lookup k).getD 0 = F.value k

variable {F} {s : State}

theorem Outputs.unique {out out' : List (ℤ × V)} (h : F.Outputs s out) (h' : F.Outputs s out') : out = out' := by
  obtain ⟨bound, hbound⟩ := h
  obtain ⟨bound', hbound'⟩ := h'
  exact Option.some.inj ((hbound _ (Nat.le_max_left bound bound')).1.symm.trans (hbound' _ (Nat.le_max_right bound bound')).1)

/-- What one bounded run outputs. -/
theorem outputs_of_run (fuel : ℕ) (out : List (ℤ × V)) (hfor : F.runForall fuel s = some out)
    (hmerge : (F.runMergeLattice fuel s).map Prod.fst = some out) : F.Outputs s out := by
  have hmono : ∀ {fuel' : ℕ} {r : List (ℤ × V) × State}, fuel ≤ fuel' → F.runMergeLattice fuel s = some r →
      F.runMergeLattice fuel' s = some r := by
    intro fuel' r hle h
    rw [runMergeLattice, Option.bind_eq_bind, Option.bind_eq_some_iff] at h ⊢
    obtain ⟨point, hpoint, h⟩ := h
    obtain ⟨loops, hloops, h⟩ := Option.bind_eq_some_iff.mp h
    exact ⟨point, hpoint, Option.bind_eq_some_iff.mpr ⟨loops, hloops, runAll_mono h hle⟩⟩
  obtain ⟨r, hr, rfl⟩ := Option.map_eq_some_iff.mp hmerge
  refine ⟨fuel, fun fuel' hle => ⟨?_, by rw [hmono hle hr, Option.map_some]⟩⟩
  rw [runForall] at hfor ⊢
  split at hfor
  · cases hfor
  · split at hfor
    · exact hfor
    · exact hfor
    · rw [hmono hle hr, Option.map_some]

/-- The coordinates of the output are those at which something is left of the expression. -/
theorem outputs_trace (F : Forall V) (c : ℤ) (hle : c ≤ F.dimension)
    (hfirst : ∀ node ∈ F.expr.accesses, ∀ k pos, (F.nodes node).Stores k pos → c ≤ k)
    (hdim : .dimension ∈ F.lattice.iterators → c = 0) (s : State) :
    ∃ out, F.Outputs s out ∧ Trace F.visited c F.dimension out := by
  obtain ⟨out, t, ⟨bound, hbound⟩, htrace⟩ := runMergeLattice_trace F c hle hfirst hdim s
  have hF := F.isLattice
  obtain ⟨point, rest, hcons⟩ := List.exists_cons_of_ne_nil hF.ne_nil
  have hpoint : point ∈ F.lattice := hcons ▸ List.mem_cons_self
  have hfor : ∀ fuel, bound ≤ fuel → F.runForall fuel s = some out := by
    intro fuel hfuel
    rw [runForall, hcons]
    dsimp only
    split
    · next hiterators =>
      have hzero := hdim (by rw [hcons, iterators_cons, hiterators]; exact List.mem_singleton_self _)
      subst hzero
      rw [(lowerForallDimension_trace hcons hiterators s).unique htrace]
    · next node hiterators =>
      have hmem : node ∈ F.expr.accesses := hF.accesses point hpoint (.level node) (by rw [hiterators]; simp) node rfl
      rw [(lowerForallPosition_trace hcons hiterators c (hfirst node hmem) s).unique htrace]
    · rw [hbound fuel hfuel, Option.map_some]
  exact ⟨out, ⟨bound, fun fuel hfuel => ⟨hfor fuel hfuel, by rw [hbound fuel hfuel, Option.map_some]⟩⟩, htrace⟩

theorem computes_of_trace {out : List (ℤ × V)} (h : Trace F.visited 0 F.dimension out) : F.Computes out where
  increasing := h.sorted
  within x hx := ((h.mem_iff x.1 x.2).mp hx).1
  value k hk hlt := by rw [h.lookup hk hlt, visited_getD hk hlt]

omit [Ring V] in
/-- Operands that are not accessed through a window store nothing before the start of the dimension. -/
theorem nonneg_of_stores {n : ℕ} {node : AccessNode V} (hnode : node.WellFormed n)
    (hmodifier : ∀ window, node.modifier ≠ .accessWindow window) {k : ℤ} {pos : ℕ} (h : node.Stores k pos) : 0 ≤ k := by
  cases node with
  | scalar val | dense level modifier vals => cases h
  | compressed level getParent modifier vals =>
    obtain ⟨hstart, hstop⟩ := AccessNode.positions_subset modifier vals hnode.1
    cases modifier with
    | accessWindow window => exact absurd rfl (hmodifier window)
    | indexSet set => exact h.2.2.1
    | unmodified =>
      have hk : level.crd pos = k := h.2.1
      exact hk ▸ (hnode.2 pos (hstart.trans h.1.1) (hstop ▸ h.1.2)).1

end Forall

variable [Ring V]

/-- A vector that stores 0, 2 and 4 times another one that stores 2, 3 and 4, plus a dense one. -/
def sparseTimesSparsePlusDense : Forall ℤ where
  dimension := 5
  nodes
    | 0 => .compressed ⟨fun p => 3 * p, fun p => 2 * p, mul_right_mono⟩ ⟨true, true, 0, 1⟩ .unmodified
        fun p => p + 1
    | 1 => .compressed ⟨fun p => 3 * p, fun p => p + 2, mul_right_mono⟩ ⟨true, true, 0, 1⟩ .unmodified
        fun p => 10 * p
    | _ => .dense ⟨5, 0⟩ .unmodified fun p => 100 * p
  expr := .add (.mul (.access 0) (.access 1)) (.access 2)
  nodup := by decide
  wellFormed := by
    have h₀ : StrictMonoOn (fun p : ℕ => 2 * (p : ℤ)) (Set.Ico 0 3) := fun p _ q _ hlt => by
      have : (p : ℤ) < q := Int.ofNat_lt.mpr hlt
      dsimp only
      omega
    have h₁ : StrictMonoOn (fun p : ℕ => (p : ℤ) + 2) (Set.Ico 0 3) := fun p _ q _ hlt => by
      have : (p : ℤ) < q := Int.ofNat_lt.mpr hlt
      dsimp only
      omega
    simp only [IndexExpr.accesses, List.cons_append, List.nil_append, List.forall_mem_cons]
    refine ⟨⟨h₀, fun pos _ hpos => ?_⟩, ⟨h₁, fun pos _ hpos => ?_⟩, trivial, by simp⟩
    · have hpos : pos < 3 := hpos
      dsimp only
      omega
    · have hpos : pos < 3 := hpos
      dsimp only
      omega

end Lower
end Taco
