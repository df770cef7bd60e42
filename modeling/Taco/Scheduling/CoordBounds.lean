import Taco.Scheduling.CutTrees

/-! The coordinate bounds that are derived for the loops so far. They hold the underived variable in every iteration when
    the relations that narrow them come first on the way from the root to the last loop variable, and the inner child of
    each of them stays within its strip. -/

namespace Taco
namespace Scheduling
open Expr Strips

/-- The value is in the half-open interval of the bounds. -/
def Bounds.Contains (bounds : Bounds) (e : Env) (x : ℕ) : Prop := bounds.1.eval e ≤ x ∧ x < bounds.2.eval e

namespace Derivation

/-- Some relation on the way to the leaf `v` narrows the bounds when the leaves `ds` are defined: the way goes on in its
    inner child, and its outer child is recovered. -/
def Narrows (ds : List IndexVar) (v : IndexVar) : Derivation → Prop
  | leaf _ => False
  | unary _ t => t.Narrows ds v
  | binary _ o i => if v ∈ o.leaves then o.Narrows ds v else o.leaves ⊆ ds ∨ i.Narrows ds v

/-- The bounds that a relation with the inner child `i` computes keep the parent: the inner child of a split stays within
    its strip, and only the relation at the `top` is a divide. -/
def KeepsParent (top : Bool) (i : Derivation) : IndexVarRel → Prop
  | .split rel => i.Within rel.splitFactor
  | _ => top = true

/-- The relations that narrow the bounds come first on the way to the leaf `v`, and keep their parents. -/
def NarrowsFirst (ds : List IndexVar) (v : IndexVar) : Bool → Derivation → Prop
  | _, leaf _ => True
  | _, unary .. => False
  | top, binary rel o i =>
    if v ∈ o.leaves then ¬ o.Narrows ds v
    else if o.leaves ⊆ ds then KeepsParent top i rel ∧ i.NarrowsFirst ds v false
    else ¬ i.Narrows ds v

end Derivation

section

variable {e : Env} {defined ds : List IndexVar} {v : IndexVar} {b : Bounds}

/-- The defined variables of a subtree, as far as the bounds read them. -/
structure DefinesOf (defined ds : List IndexVar) (t : Derivation) : Prop where
  mem_iff : ∀ w ∈ t.labels, w ∈ defined ↔ w ∈ ds ∨ w ∈ covered ds t
  inner : ∀ w ∈ t.inner, w ∉ ds

theorem DefinesOf.outer {rel : IndexVarRel} {o i : Derivation} (h : DefinesOf defined ds (.binary rel o i))
    (hnd : (Derivation.binary rel o i).labels.Nodup) : DefinesOf defined ds o where
  mem_iff w hw := by
    obtain ⟨hpo, -, -, -, hdisj⟩ := Derivation.nodup_binary hnd
    have hi : w ∉ covered ds i := fun hc => hdisj w hw (i.inner_subset_labels (covered_subset_inner _ i hc))
    have hp : w ∉ (if o.leaves ++ i.leaves ⊆ ds then [rel.parentVar] else []) := fun hc => by
      split_ifs at hc
      · exact hpo (List.mem_singleton.mp hc ▸ hw)
      · cases hc
    rw [h.mem_iff w (List.mem_cons_of_mem _ (List.mem_append_left _ hw)), covered, List.mem_append, List.mem_append,
      or_iff_left hp, or_iff_left hi]
  inner w hw := h.inner w (List.mem_cons_of_mem _ (List.mem_append_left _ hw))

theorem DefinesOf.innerChild {rel : IndexVarRel} {o i : Derivation} (h : DefinesOf defined ds (.binary rel o i))
    (hnd : (Derivation.binary rel o i).labels.Nodup) : DefinesOf defined ds i where
  mem_iff w hw := by
    obtain ⟨-, hpi, -, -, hdisj⟩ := Derivation.nodup_binary hnd
    have ho : w ∉ covered ds o := fun hc => hdisj w (o.inner_subset_labels (covered_subset_inner _ o hc)) hw
    have hp : w ∉ (if o.leaves ++ i.leaves ⊆ ds then [rel.parentVar] else []) := fun hc => by
      split_ifs at hc
      · exact hpi (List.mem_singleton.mp hc ▸ hw)
      · cases hc
    rw [h.mem_iff w (List.mem_cons_of_mem _ (List.mem_append_right _ hw)), covered, List.mem_append, List.mem_append,
      or_iff_left hp, or_iff_right ho]
  inner w hw := h.inner w (List.mem_cons_of_mem _ (List.mem_append_right _ hw))

/-- The label of a subtree is defined when the leaves below it are. -/
theorem DefinesOf.label {t : Derivation} (h : DefinesOf defined ds t) (hnd : t.labels.Nodup) (ht : t.Cuts) :
    t.label ∈ defined ↔ t.leaves ⊆ ds := by
  rw [h.mem_iff _ t.label_mem_labels]
  cases t with
  | leaf v => simp [covered, Derivation.label, Derivation.leaves]
  | unary rel t => exact absurd ht id
  | binary rel o i =>
    have hp : (Derivation.binary rel o i).label ∉ ds := h.inner _ List.mem_cons_self
    rw [or_iff_right hp]
    refine ⟨parentVar_covered_binary hnd, fun hsub => ?_⟩
    have hsub : o.leaves ++ i.leaves ⊆ ds := hsub
    rw [covered, if_pos hsub]
    exact List.mem_append_right _ (List.mem_singleton_self _)

theorem computeRelativeBound_of_not_mem {rel : IndexVarRel} {o i : Derivation} (hrel : rel.PositiveCut)
    (hch : rel.getChildren = [o.label, i.label]) (ho : o.label ∉ defined) (pos : Bool) :
    rel.computeRelativeBound defined b var pos = b := by
  cases rel with
  | split rel =>
    rw [← (List.cons.inj hch).1] at ho
    rw [IndexVarRel.computeRelativeBound, SplitRelNode.computeRelativeBound, if_neg ho, ite_self]
  | divide rel =>
    rw [← (List.cons.inj hch).1] at ho
    rw [IndexVarRel.computeRelativeBound, DivideRelNode.computeRelativeBound, if_neg ho, ite_self]
  | pos rel => exact absurd hrel id
  | bound rel => exact absurd hrel id

/-- Without a relation that narrows them, the bounds of the root are kept. -/
theorem relativeBounds_of_not_narrows (hvd : v ∉ ds) : ∀ {t : Derivation}, t.Linked → t.labels.Nodup → t.Cuts →
    DefinesOf defined ds t → v ∈ t.leaves → ¬ t.Narrows ds v → relativeBounds var defined (above v t) b = b
  | .leaf _, _, _, _, _, _, _ => rfl
  | .unary .., _, _, ht, _, _, _ => absurd ht id
  | .binary rel o i, ⟨hch, hlo, hli⟩, hnd, ⟨hrel, ho, hi⟩, hdef, hv, hnot => by
    obtain ⟨-, -, hndo, hndi, -⟩ := Derivation.nodup_binary hnd
    rw [Derivation.Narrows] at hnot
    by_cases hvo : v ∈ o.leaves
    · have hlabel : o.label ∉ defined := fun h => hvd (((hdef.outer hnd).label hndo ho).mp h hvo)
      rw [if_pos hvo] at hnot
      rw [above_outer hnd (o.leaves_subset_labels hvo), relativeBounds_append hrel.not_pos,
        computeRelativeBound_of_not_mem hrel hch hlabel]
      exact relativeBounds_of_not_narrows hvd hlo hndo ho (hdef.outer hnd) hvo hnot
    · have hvi : v ∈ i.leaves := (List.mem_append.mp hv).resolve_left hvo
      rw [if_neg hvo, not_or] at hnot
      have hlabel : o.label ∉ defined := fun h => hnot.1 (((hdef.outer hnd).label hndo ho).mp h)
      rw [above_inner hnd (i.leaves_subset_labels hvi), relativeBounds_append hrel.not_pos,
        computeRelativeBound_of_not_mem hrel hch hlabel]
      exact relativeBounds_of_not_narrows hvd hli hndi hi (hdef.innerChild hnd) hvi hnot.2

/-- The bounds of a strip or chunk, whose inner child is not yet recovered. -/
theorem eval_computeRelativeBound {rel : IndexVarRel} {o i : Derivation} (hrel : rel.PositiveCut)
    (hch : rel.getChildren = [o.label, i.label]) (ho : o.label ∈ defined) (hi : i.label ∉ defined) :
    match rel with
    | .split rel =>
      (((IndexVarRel.split rel).computeRelativeBound defined b var false).1.eval e =
          b.1.eval e + e o.label * rel.splitFactor) ∧
        (((IndexVarRel.split rel).computeRelativeBound defined b var false).2.eval e =
          min (b.2.eval e) (b.1.eval e + e o.label * rel.splitFactor + rel.splitFactor))
    | rel =>
      ((rel.computeRelativeBound defined b var false).1.eval e = e o.label * rel.stripSize (b.2.eval e)) ∧
        ((rel.computeRelativeBound defined b var false).2.eval e = (e o.label + 1) * rel.stripSize (b.2.eval e)) := by
  cases rel with
  | split rel =>
    obtain ⟨houter, hinner⟩ : rel.outerVar = o.label ∧ rel.innerVar = i.label := by
      simpa [IndexVarRel.getChildren] using hch
    simp [IndexVarRel.computeRelativeBound, SplitRelNode.computeRelativeBound, houter, hinner, ho, hi]
  | divide rel =>
    obtain ⟨houter, hinner⟩ : rel.outerVar = o.label ∧ rel.innerVar = i.label := by
      simpa [IndexVarRel.getChildren] using hch
    simp [IndexVarRel.computeRelativeBound, DivideRelNode.computeRelativeBound, houter, hinner, ho, hi,
      IndexVarRel.stripSize, ceilDiv]
  | pos rel => exact absurd hrel id
  | bound rel => exact absurd hrel id

/-- Bounds that start at the value of the root, up to what the tree below adds to it, keep the value. -/
theorem relativeBounds_contains (hvd : v ∉ ds) : ∀ {t : Derivation} {top : Bool} {k : ℕ} {b : Bounds} {x : ℕ}, t.Linked →
    t.labels.Nodup → t.Cuts → DefinesOf defined ds t → v ∈ t.leaves → t.NarrowsFirst ds v top → Iterates e t k →
      (top = true → b.1.eval e = 0 ∧ b.2.eval e = k) → x = b.1.eval e + e t.label → x < b.2.eval e →
        (relativeBounds var defined (above v t) b).Contains e x
  | .leaf _, _, _, _, _, _, _, _, _, _, _, _, _, hx, hlt => ⟨hx ▸ Nat.le_add_right _ _, hlt⟩
  | .unary .., _, _, _, _, _, _, ht, _, _, _, _, _, _, _ => absurd ht id
  | .binary rel o i, top, k, b, x, hl, hnd, ht, hdef, hv, hfirst, ⟨⟨_, hii⟩, hval, hchunk⟩, htop, hx, hlt => by
    have ⟨hch, hlo, hli⟩ := hl
    have ⟨hrel, ho, hi⟩ := ht
    obtain ⟨-, -, hndo, hndi, hdisj⟩ := Derivation.nodup_binary hnd
    have hkept : b.Contains e x := ⟨hx ▸ Nat.le_add_right _ _, hlt⟩
    rw [Derivation.NarrowsFirst] at hfirst
    by_cases hvo : v ∈ o.leaves
    · rw [if_pos hvo] at hfirst
      rw [relativeBounds_of_not_narrows hvd hl hnd ht hdef hv
        (by rw [Derivation.Narrows, if_pos hvo]; exact hfirst)]
      exact hkept
    · have hvi : v ∈ i.leaves := (List.mem_append.mp hv).resolve_left hvo
      rw [if_neg hvo] at hfirst
      by_cases hsub : o.leaves ⊆ ds
      · rw [if_pos hsub] at hfirst
        have hod : o.label ∈ defined := ((hdef.outer hnd).label hndo ho).mpr hsub
        have hid : i.label ∉ defined := fun h => hvd (((hdef.innerChild hnd).label hndi hi).mp h hvi)
        have heval := eval_computeRelativeBound (e := e) (b := b) hrel hch hod hid
        rw [above_inner hnd (i.leaves_subset_labels hvi), relativeBounds_append hrel.not_pos]
        have hrest := relativeBounds_contains hvd (k := rel.extent i.label k) (x := x)
          (b := rel.computeRelativeBound defined b var false) hli hndi hi (hdef.innerChild hnd) hvi hfirst.2 hii
          (fun h => Bool.noConfusion h)
        cases rel with
        | split rel =>
          -- The strip starts at the outer child; the inner one is less than its size.
          obtain ⟨houter, hinner⟩ : rel.outerVar = o.label ∧ rel.innerVar = i.label := by
            simpa [IndexVarRel.getChildren] using hch
          have hne : i.label ≠ rel.outerVar := fun he => hdisj _ o.label_mem_labels (houter ▸ he ▸ i.label_mem_labels)
          rw [IndexVarRel.extent, if_neg hne] at hii
          have hlti := Derivation.label_lt hli hndi hi hfirst.1 hii
          have hval : e rel.parentVar = e rel.outerVar * rel.splitFactor + e rel.innerVar := hval
          rw [houter, hinner] at hval
          have hx : x = b.1.eval e + e rel.parentVar := hx
          have hsum : x = b.1.eval e + e o.label * rel.splitFactor + e i.label := by rw [hx, hval, Nat.add_assoc]
          refine hrest (by rw [heval.1]; exact hsum) ?_
          rw [heval.2, lt_min_iff]
          exact ⟨hlt, by omega⟩
        | divide rel =>
          -- Only the chunks of the whole range are computed from their own bounds.
          obtain ⟨houter, hinner⟩ : rel.outerVar = o.label ∧ rel.innerVar = i.label := by
            simpa [IndexVarRel.getChildren] using hch
          obtain ⟨hlo0, hhik⟩ := htop hfirst.1
          have hval : e rel.parentVar = e rel.outerVar * ceilDiv k rel.divFactor + e rel.innerVar := hval
          have hchunk : e rel.parentVar < (e rel.outerVar + 1) * ceilDiv k rel.divFactor := of_decide_eq_true hchunk
          rw [houter, hinner] at hval
          rw [houter] at hchunk
          have hx : x = b.1.eval e + e rel.parentVar := hx
          rw [hlo0, Nat.zero_add] at hx
          have hsize : (IndexVarRel.divide rel).stripSize (b.2.eval e) = ceilDiv k rel.divFactor := by rw [hhik]; rfl
          refine hrest (by rw [heval.1, hsize, hx, hval]) ?_
          rw [heval.2, hsize, hx]
          exact hchunk
        | pos rel => exact absurd hrel id
        | bound rel => exact absurd hrel id
      · rw [if_neg hsub] at hfirst
        rw [relativeBounds_of_not_narrows hvd hl hnd ht hdef hv
          (by rw [Derivation.Narrows, if_neg hvo, not_or]; exact ⟨hsub, hfirst⟩)]
        exact hkept

/-- The bounds read the defined variables only. -/
theorem eval_relativeBounds_congr {e' : Env} (h : ∀ w ∈ defined, e w = e' w)
    (hb : b.1.eval e = b.1.eval e' ∧ b.2.eval e = b.2.eval e') : ∀ rels : List IndexVarRel,
    (relativeBounds var defined rels b).1.eval e = (relativeBounds var defined rels b).1.eval e' ∧
      (relativeBounds var defined rels b).2.eval e = (relativeBounds var defined rels b).2.eval e'
  | [] => hb
  | rel :: rels => by
    have ih := eval_relativeBounds_congr h hb rels
    rw [relativeBounds]
    cases rel with
    | split rel =>
      rw [IndexVarRel.computeRelativeBound, SplitRelNode.computeRelativeBound]
      split_ifs with hp ho hi
      · exact ih
      · simp [ih, h _ ho, h _ hi]
      · simp [ih, h _ ho]
      · exact ih
    | divide rel =>
      rw [IndexVarRel.computeRelativeBound, DivideRelNode.computeRelativeBound]
      split_ifs with hp ho hi
      · exact ih
      · simp [ih, h _ ho, h _ hi]
      · simp [ih, h _ ho]
      · exact ih
    | pos rel => exact ih
    | bound rel => exact ih

end

end Scheduling
end Taco
