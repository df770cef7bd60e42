import Taco.Scheduling.CoordBounds
import Taco.Scheduling.SplitTrees

/-! A variable that is bounded by the size of its dimension and split below the bound. The guard of the underived variable
    is left out where the loop that recovers it has an exact bound, or runs to a factor of the bound. -/

namespace Taco
namespace Scheduling
open Expr Strips

/-! ### The values that the leaves compose -/

namespace Derivation

section

variable {rel : SplitRelNode} {o i : Derivation} {k : ℕ}

theorem split_children (hch : (IndexVarRel.split rel).getChildren = [o.label, i.label]) :
    rel.outerVar = o.label ∧ rel.innerVar = i.label := by
  simpa [IndexVarRel.getChildren] using hch

theorem split_extent (hch : (IndexVarRel.split rel).getChildren = [o.label, i.label])
    (hnd : (binary (.split rel) o i).labels.Nodup) (r : ℕ × ℕ) :
    (IndexVarRel.split rel).extent o.label k = ceilDiv k rel.splitFactor ∧
      (IndexVarRel.split rel).extent i.label k = rel.splitFactor ∧
      (IndexVarRel.split rel).span o.label r = (r.1 / rel.splitFactor, ceilDiv r.2 rel.splitFactor) ∧
      (IndexVarRel.split rel).span i.label r = (0, rel.splitFactor) := by
  obtain ⟨houter, -⟩ := split_children hch
  have hne : i.label ≠ rel.outerVar := fun he =>
    (nodup_binary hnd).2.2.2.2 _ o.label_mem_labels (houter ▸ he ▸ i.label_mem_labels)
  exact ⟨if_pos houter.symm, if_neg hne, if_pos houter.symm, if_neg hne⟩

/-- Values of the leaves below a split, from those below its children. -/
theorem exists_split (hch : (IndexVarRel.split rel).getChildren = [o.label, i.label])
    (hnd : (binary (.split rel) o i).labels.Nodup) {eo ei : Env}
    (ho : ∀ w ∈ o.leaves, eo w < o.extent w (ceilDiv k rel.splitFactor))
    (hi : ∀ w ∈ i.leaves, ei w < i.extent w rel.splitFactor) :
    ∃ e : Env, (∀ w ∈ (binary (.split rel) o i).leaves, e w < (binary (.split rel) o i).extent w k) ∧
      (binary (.split rel) o i).compose e = o.compose eo * rel.splitFactor + i.compose ei := by
  obtain ⟨hextO, hextI, -⟩ := split_extent (k := k) hch hnd (0, 0)
  have hdisj := (nodup_binary hnd).2.2.2.2
  let e : Env := fun w => if w ∈ o.labels then eo w else ei w
  have heo : ∀ w ∈ o.leaves, e w = eo w := fun w hw => if_pos (o.leaves_subset_labels hw)
  have hei : ∀ w ∈ i.leaves, e w = ei w := fun w hw => if_neg fun h => hdisj w h (i.leaves_subset_labels hw)
  refine ⟨e, fun w hw => ?_, ?_⟩
  · rcases List.mem_append.mp hw with hw | hw
    · rw [extent_outer hnd (o.leaves_subset_labels hw), hextO, heo w hw]
      exact ho w hw
    · rw [extent_inner hnd (i.leaves_subset_labels hw), hextI, hei w hw]
      exact hi w hw
  · rw [compose, compose_congr heo, compose_congr hei]
    rfl

end

/-- Every value of the range is composed. -/
theorem exists_compose : ∀ {s : Derivation} {k x : ℕ}, s.Linked → s.labels.Nodup → s.Splits → x < k →
    ∃ e : Env, (∀ w ∈ s.leaves, e w < s.extent w k) ∧ s.compose e = x
  | leaf v, k, x, _, _, _, hx => ⟨fun _ => x, fun _ _ => hx, rfl⟩
  | unary .., _, _, _, _, hs, _ => absurd hs id
  | binary (.split rel) o i, k, x, ⟨hch, hlo, hli⟩, hnd, ⟨hf, ho, hi⟩, hx => by
    obtain ⟨-, -, hndo, hndi, -⟩ := nodup_binary hnd
    obtain ⟨eo, hleo, hceo⟩ := exists_compose hlo hndo ho (div_lt_ceilDiv hf hx)
    obtain ⟨ei, hlei, hcei⟩ := exists_compose hli hndi hi (Nat.mod_lt x hf)
    obtain ⟨e, hle, hce⟩ := exists_split hch hnd hleo hlei
    refine ⟨e, hle, ?_⟩
    rw [hce, hceo, hcei]
    exact Nat.div_add_mod' x rel.splitFactor
  | binary (.divide _) _ _, _, _, _, _, hs, _ => absurd hs.1 id
  | binary (.pos _) _ _, _, _, _, _, hs, _ => absurd hs.1 id
  | binary (.bound _) _ _, _, _, _, _, hs, _ => absurd hs.1 id

/-- Where a factor does not divide what it splits, a value past the range is composed. -/
theorem exists_compose_ge : ∀ {s : Derivation} {k : ℕ}, s.Linked → s.labels.Nodup → s.Splits → 0 < k → ¬ s.Within k →
    ∃ e : Env, (∀ w ∈ s.leaves, e w < s.extent w k) ∧ k ≤ s.compose e
  | leaf _, _, _, _, _, _, hnot => absurd trivial hnot
  | unary .., _, _, _, hs, _, _ => absurd hs id
  | binary (.split rel) o i, k, ⟨hch, hlo, hli⟩, hnd, ⟨hf, ho, hi⟩, hk, hnot => by
    obtain ⟨-, -, hndo, hndi, -⟩ := nodup_binary hnd
    have hceil : 0 < ceilDiv k rel.splitFactor := (lt_ceilDiv hf).mpr (by rwa [Nat.zero_mul])
    have hcover : k ≤ ceilDiv k rel.splitFactor * rel.splitFactor := not_lt.mp fun h => Nat.lt_irrefl _ ((lt_ceilDiv hf).mpr h)
    obtain ⟨eo, hleo, hceo⟩ := exists_compose hlo hndo ho (Nat.sub_lt hceil Nat.one_pos)
    by_cases hdvd : rel.splitFactor ∣ k
    · rw [ceilDiv_of_dvd hf hdvd] at *
      by_cases hwo : o.Within (k / rel.splitFactor)
      · -- The last strip is composed with a value past the strip.
        have hwi : ¬ i.Within rel.splitFactor := fun hwi => hnot ⟨hdvd, hwo, hwi⟩
        obtain ⟨ei, hlei, hcei⟩ := exists_compose_ge hli hndi hi hf hwi
        obtain ⟨e, hle, hce⟩ := exists_split hch hnd (by rwa [ceilDiv_of_dvd hf hdvd]) hlei
        refine ⟨e, hle, ?_⟩
        rw [hce, hceo]
        calc k = (k / rel.splitFactor - 1) * rel.splitFactor + rel.splitFactor := by
              rw [← Nat.succ_mul, Nat.succ_eq_add_one, Nat.sub_add_cancel hceil, Nat.div_mul_cancel hdvd]
          _ ≤ _ := Nat.add_le_add_left hcei _
      · obtain ⟨eo, hleo, hceo⟩ := exists_compose_ge hlo hndo ho hceil hwo
        obtain ⟨ei, hlei, -⟩ := exists_compose hli hndi hi hf
        obtain ⟨e, hle, hce⟩ := exists_split hch hnd (by rwa [ceilDiv_of_dvd hf hdvd]) hlei
        refine ⟨e, hle, ?_⟩
        rw [hce, ← Nat.div_mul_cancel hdvd]
        exact (Nat.mul_le_mul_right _ hceo).trans (Nat.le_add_right _ _)
    · -- The last value of the last strip.
      obtain ⟨ei, hlei, hcei⟩ := exists_compose hli hndi hi (Nat.sub_lt hf Nat.one_pos)
      obtain ⟨e, hle, hce⟩ := exists_split hch hnd hleo hlei
      refine ⟨e, hle, ?_⟩
      have hne : k ≠ ceilDiv k rel.splitFactor * rel.splitFactor := fun he => hdvd (he ▸ Nat.dvd_mul_left _ _)
      have hlast : ceilDiv k rel.splitFactor * rel.splitFactor =
          (ceilDiv k rel.splitFactor - 1) * rel.splitFactor + rel.splitFactor := by
        rw [← Nat.succ_mul, Nat.succ_eq_add_one, Nat.sub_add_cancel hceil]
      rw [hce, hceo, hcei]
      omega
  | binary (.divide _) _ _, _, _, _, hs, _, _ => absurd hs.1 id
  | binary (.pos _) _ _, _, _, _, hs, _, _ => absurd hs.1 id
  | binary (.bound _) _ _, _, _, _, hs, _, _ => absurd hs.1 id

/-- Where the factors divide, a value has one iteration. -/
theorem leaves_unique {e e' : Env} : ∀ {s : Derivation} {k : ℕ}, s.Linked → s.labels.Nodup → s.Splits → s.Within k →
    Iterates e s k → Iterates e' s k → e s.label = e' s.label → ∀ w ∈ s.leaves, e w = e' w
  | leaf v, _, _, _, _, _, _, _, hval, w, hw => by rwa [List.mem_singleton.mp hw]
  | unary .., _, _, _, hs, _, _, _, _, _, _ => absurd hs id
  | binary (.split rel) o i, k, ⟨hch, hlo, hli⟩, hnd, ⟨hf, ho, hi⟩, ⟨hdvd, hwo, hwi⟩, ⟨⟨hio, hii⟩, hval, _⟩,
      ⟨⟨hio', hii'⟩, hval', _⟩, hsame, w, hw => by
    obtain ⟨-, -, hndo, hndi, -⟩ := nodup_binary hnd
    obtain ⟨houter, hinner⟩ := split_children hch
    obtain ⟨hextO, hextI, -⟩ := split_extent (k := k) hch hnd (0, 0)
    rw [hextO, ceilDiv_of_dvd hf hdvd] at hio hio'
    rw [hextI] at hii hii'
    have hlt := label_lt hli hndi hi.cuts hwi hii
    have hlt' := label_lt hli hndi hi.cuts hwi hii'
    have hval : e rel.parentVar = e rel.outerVar * rel.splitFactor + e rel.innerVar := hval
    have hval' : e' rel.parentVar = e' rel.outerVar * rel.splitFactor + e' rel.innerVar := hval'
    have hsame : e rel.parentVar = e' rel.parentVar := hsame
    rw [hval, hval', houter, hinner] at hsame
    have houterSame : e o.label = e' o.label := by
      rw [← div_strip (o := e o.label) hlt, hsame, div_strip hlt']
    have hinnerSame : e i.label = e' i.label := by
      rw [← mod_strip (o := e o.label) hlt, hsame, mod_strip hlt']
    rcases List.mem_append.mp hw with hw | hw
    · exact leaves_unique hlo hndo ho hwo hio hio' houterSame w hw
    · exact leaves_unique hli hndi hi hwi hii hii' hinnerSame w hw
  | binary (.divide _) _ _, _, _, _, hs, _, _, _, _, _, _ => absurd hs.1 id
  | binary (.pos _) _ _, _, _, _, hs, _, _, _, _, _, _ => absurd hs.1 id
  | binary (.bound _) _ _, _, _, _, hs, _, _, _, _, _, _ => absurd hs.1 id

/-! ### The lower bounds of the loops -/

/-- The leaf that only outer children lead to. -/
def spine : Derivation → IndexVar
  | leaf v => v
  | unary _ t => t.spine
  | binary _ o _ => o.spine

theorem spine_mem : ∀ t : Derivation, t.spine ∈ t.leaves
  | leaf v => List.mem_singleton_self v
  | unary _ t => spine_mem t
  | binary _ o _ => List.mem_append_left _ (spine_mem o)

/-- The spine is no inner child. -/
theorem innerVar_ne_spine {r : SplitRelNode} : ∀ {s : Derivation}, s.Linked → s.labels.Nodup → s.Splits →
    IndexVarRel.split r ∈ s.relations → r.innerVar ≠ s.spine
  | leaf _, _, _, _, h => by cases h
  | unary .., _, _, hs, _ => absurd hs id
  | binary rel o i, ⟨hch, hlo, hli⟩, hnd, ⟨_, ho, hi⟩, h => by
    obtain ⟨-, -, hndo, hndi, hdisj⟩ := nodup_binary hnd
    have hspine : o.spine ∈ o.labels := o.leaves_subset_labels o.spine_mem
    have hinner : r.innerVar ∈ (IndexVarRel.split r).getChildren := List.mem_cons_of_mem _ (List.mem_singleton_self _)
    rcases List.mem_cons.mp h with rfl | h
    · exact fun he => hdisj _ hspine (he ▸ (split_children hch).2 ▸ i.label_mem_labels)
    · rcases List.mem_append.mp h with h | h
      · have ih : r.innerVar ≠ o.spine := innerVar_ne_spine hlo hndo ho h
        exact ih
      · exact fun he => hdisj _ hspine (he ▸ List.mem_of_mem_tail (child_mem hli h hinner))

/-- The loop over the spine does not run in an empty range. -/
theorem extent_spine_zero : ∀ {s : Derivation}, s.Linked → s.labels.Nodup → s.Splits → s.extent s.spine 0 = 0
  | leaf _, _, _, _ => rfl
  | unary .., _, _, hs => absurd hs id
  | binary (.split rel) o i, ⟨hch, hlo, _⟩, hnd, ⟨hf, ho, _⟩ => by
    have hzero : ceilDiv 0 rel.splitFactor = 0 := Nat.eq_zero_of_not_pos fun h => by
      have := (lt_ceilDiv hf).mp h
      omega
    rw [spine, extent_outer hnd (o.leaves_subset_labels o.spine_mem), (split_extent hch hnd (0, 0)).1, hzero]
    exact extent_spine_zero hlo (nodup_binary hnd).2.2.1 ho
  | binary (.divide _) _ _, _, _, hs => absurd hs.1 id
  | binary (.pos _) _ _, _, _, hs => absurd hs.1 id
  | binary (.bound _) _ _, _, _, hs => absurd hs.1 id

theorem span_snd {w : IndexVar} : ∀ {s : Derivation} {r : ℕ × ℕ}, s.Splits → (s.span w r).2 = s.extent w r.2
  | leaf _, _, _ => rfl
  | unary .., _, hs => absurd hs id
  | binary (.split rel) o i, r, ⟨_, ho, hi⟩ => by
    have hchild : ∀ c, ((IndexVarRel.split rel).span c r).2 = (IndexVarRel.split rel).extent c r.2 := fun c => by
      rw [IndexVarRel.span, IndexVarRel.extent]
      split_ifs <;> rfl
    rw [span, extent]
    split_ifs
    · rfl
    · rw [span_snd ho, hchild]
    · rw [span_snd hi, hchild]
  | binary (.divide _) _ _, _, hs => absurd hs.1 id
  | binary (.pos _) _ _, _, hs => absurd hs.1 id
  | binary (.bound _) _ _, _, hs => absurd hs.1 id

theorem span_fst_mono {w : IndexVar} : ∀ {s : Derivation} {r r' : ℕ × ℕ}, s.Splits → r.1 ≤ r'.1 →
    (s.span w r).1 ≤ (s.span w r').1
  | leaf _, _, _, _, h => h
  | unary .., _, _, hs, _ => absurd hs id
  | binary (.split rel) o i, r, r', ⟨_, ho, hi⟩, h => by
    have hchild : ∀ c, ((IndexVarRel.split rel).span c r).1 ≤ ((IndexVarRel.split rel).span c r').1 := fun c => by
      rw [IndexVarRel.span, IndexVarRel.span]
      split_ifs
      · exact Nat.div_le_div_right h
      · exact Nat.le_refl _
    rw [span, span]
    split_ifs
    · exact h
    · exact span_fst_mono ho (hchild _)
    · exact span_fst_mono hi (hchild _)
  | binary (.divide _) _ _, _, _, hs, _ => absurd hs.1 id
  | binary (.pos _) _ _, _, _, hs, _ => absurd hs.1 id
  | binary (.bound _) _ _, _, _, hs, _ => absurd hs.1 id

/-- The lower bounds of the other leaves do not depend on that of the root. -/
theorem span_fst_of_ne_spine {w : IndexVar} : ∀ {s : Derivation} {r : ℕ × ℕ}, s.Linked → s.labels.Nodup → s.Splits →
    w ∈ s.leaves → w ≠ s.spine → (s.span w r).1 = 0
  | leaf _, _, _, _, _, hw, hne => absurd (List.mem_singleton.mp hw) hne
  | unary .., _, _, _, hs, _, _ => absurd hs id
  | binary (.split rel) o i, r, ⟨hch, hlo, hli⟩, hnd, ⟨_, ho, hi⟩, hw, hne => by
    obtain ⟨-, -, hndo, hndi, -⟩ := nodup_binary hnd
    obtain ⟨-, -, hspanO, hspanI⟩ := split_extent (k := 0) hch hnd r
    rcases List.mem_append.mp hw with hw | hw
    · rw [span_outer hnd (o.leaves_subset_labels hw)]
      exact span_fst_of_ne_spine hlo hndo ho hw hne
    · rw [span_inner hnd (i.leaves_subset_labels hw), hspanI, span_zero]
  | binary (.divide _) _ _, _, _, _, hs, _, _ => absurd hs.1 id
  | binary (.pos _) _ _, _, _, _, hs, _, _ => absurd hs.1 id
  | binary (.bound _) _ _, _, _, _, hs, _, _ => absurd hs.1 id

end Derivation

/-- Leaves in their ranges, with the variables that they recover, are those of an iteration. -/
theorem iterates_of_splits {e : Env} : ∀ {s : Derivation} {k : ℕ}, s.Linked → s.labels.Nodup → s.Splits →
    (∀ w ∈ s.leaves, e w < s.extent w k) →
      (∀ rel ∈ s.relations, e rel.parentVar = rel.parentValue (rel.stripSize 0) e) → Iterates e s k
  | .leaf v, _, _, _, _, hlt, _ => hlt v (List.mem_singleton_self v)
  | .unary .., _, _, _, hs, _, _ => absurd hs id
  | .binary (.split rel) o i, k, ⟨_, hlo, hli⟩, hnd, ⟨_, ho, hi⟩, hlt, hval => by
    obtain ⟨-, -, hndo, hndi, -⟩ := Derivation.nodup_binary hnd
    refine ⟨⟨iterates_of_splits hlo hndo ho (fun w hw => ?_) fun r hr => hval r ?_,
      iterates_of_splits hli hndi hi (fun w hw => ?_) fun r hr => hval r ?_⟩, hval _ List.mem_cons_self, rfl⟩
    · rw [← Derivation.extent_outer hnd (o.leaves_subset_labels hw)]
      exact hlt w (List.mem_append_left _ hw)
    · exact List.mem_cons_of_mem _ (List.mem_append_left _ hr)
    · rw [← Derivation.extent_inner hnd (i.leaves_subset_labels hw)]
      exact hlt w (List.mem_append_right _ hw)
    · exact List.mem_cons_of_mem _ (List.mem_append_right _ hr)
  | .binary (.divide _) _ _, _, _, _, hs, _, _ => absurd hs.1 id
  | .binary (.pos _) _ _, _, _, _, hs, _, _ => absurd hs.1 id
  | .binary (.bound _) _ _, _, _, _, hs, _, _ => absurd hs.1 id

section

variable {e : Env} {defined ds : List IndexVar} {u v : IndexVar}

/-- The lower coordinate bound along the way to the leaf `u` is less than the range of the tree. -/
theorem relativeBounds_fst_lt (hud : u ∉ ds) : ∀ {s : Derivation} {k : ℕ} {b : Bounds}, s.Linked → s.labels.Nodup →
    s.Splits → DefinesOf defined ds s → u ∈ s.leaves → s.Within k → Iterates e s k →
      (relativeBounds var defined (above u s) b).1.eval e < b.1.eval e + k
  | .leaf _, k, b, _, _, _, _, _, _, hit => Nat.lt_add_of_pos_right (Nat.zero_lt_of_lt hit)
  | .unary .., _, _, _, _, hs, _, _, _, _ => absurd hs id
  | .binary (.split rel) o i, k, b, ⟨hch, hlo, hli⟩, hnd, ⟨hf, ho, hi⟩, hdef, hu, ⟨hdvd, hwo, hwi⟩, ⟨⟨hio, hii⟩, hval, _⟩ => by
    obtain ⟨-, -, hndo, hndi, -⟩ := Derivation.nodup_binary hnd
    obtain ⟨hextO, hextI, -⟩ := Derivation.split_extent (k := k) hch hnd (0, 0)
    rw [hextO, ceilDiv_of_dvd hf hdvd] at hio
    rw [hextI] at hii
    have hlto := Derivation.label_lt hlo hndo ho.cuts hwo hio
    have hk : k / rel.splitFactor * rel.splitFactor = k := Nat.div_mul_cancel hdvd
    have hcut : (IndexVarRel.split rel).PositiveCut := hf
    rcases List.mem_append.mp hu with huo | hui
    · have hlabel : o.label ∉ defined := fun h => hud (((hdef.outer hnd).label hndo ho.cuts).mp h huo)
      rw [above_outer hnd (o.leaves_subset_labels huo), relativeBounds_append hcut.not_pos,
        computeRelativeBound_of_not_mem hcut hch hlabel]
      exact lt_of_lt_of_le (relativeBounds_fst_lt hud hlo hndo ho (hdef.outer hnd) huo hwo hio)
        (Nat.add_le_add_left (Nat.div_le_self _ _) _)
    · have hlabel : i.label ∉ defined := fun h => hud (((hdef.innerChild hnd).label hndi hi.cuts).mp h hui)
      rw [above_inner hnd (i.leaves_subset_labels hui), relativeBounds_append hcut.not_pos]
      refine lt_of_lt_of_le (relativeBounds_fst_lt hud hli hndi hi (hdef.innerChild hnd) hui hwi hii) ?_
      by_cases hod : o.label ∈ defined
      · rw [(eval_computeRelativeBound (e := e) (b := b) hcut hch hod hlabel).1, Nat.add_assoc, ← Nat.succ_mul]
        exact Nat.add_le_add_left (hk ▸ Nat.mul_le_mul_right _ hlto) _
      · rw [computeRelativeBound_of_not_mem hcut hch hod]
        exact Nat.add_le_add_left (hk ▸ Nat.le_mul_of_pos_left _ (Nat.zero_lt_of_lt hlto)) _
  | .binary (.divide _) _ _, _, _, _, _, hs, _, _, _, _ => absurd hs.1 id
  | .binary (.pos _) _ _, _, _, _, _, hs, _, _, _, _ => absurd hs.1 id
  | .binary (.bound _) _ _, _, _, _, _, hs, _, _, _, _ => absurd hs.1 id

/-- Where the factors divide, the coordinate bounds along the way to another leaf do not move the loop over `v`. -/
theorem span_relativeBounds_fst (hud : u ∉ ds) (hvd : v ∉ ds) (hne : v ≠ u) : ∀ {s : Derivation} {k m : ℕ} {b : Bounds},
    s.Linked → s.labels.Nodup → s.Splits → DefinesOf defined ds s → u ∈ s.leaves → v ∈ s.leaves → s.Within k →
      Iterates e s k → b.1.eval e = 0 → (s.span v ((relativeBounds var defined (above u s) b).1.eval e, m)).1 = 0
  | .leaf _, _, _, _, _, _, _, _, hu, hv, _, _, _ =>
    absurd ((List.mem_singleton.mp hv).trans (List.mem_singleton.mp hu).symm) hne
  | .unary .., _, _, _, _, _, hs, _, _, _, _, _, _ => absurd hs id
  | .binary (.split rel) o i, k, m, b, ⟨hch, hlo, hli⟩, hnd, ⟨hf, ho, hi⟩, hdef, hu, hv, ⟨hdvd, hwo, hwi⟩,
      ⟨⟨hio, hii⟩, _⟩, hb => by
    obtain ⟨-, -, hndo, hndi, -⟩ := Derivation.nodup_binary hnd
    obtain ⟨hextO, hextI, -⟩ := Derivation.split_extent (k := k) hch hnd (0, 0)
    rw [hextO, ceilDiv_of_dvd hf hdvd] at hio
    rw [hextI] at hii
    have hcut : (IndexVarRel.split rel).PositiveCut := hf
    rcases List.mem_append.mp hv with hvo | hvi
    · have hlabel : o.label ∉ defined := fun h => hvd (((hdef.outer hnd).label hndo ho.cuts).mp h hvo)
      rw [Derivation.span_outer hnd (o.leaves_subset_labels hvo), (Derivation.split_extent (k := k) hch hnd _).2.2.1]
      rcases List.mem_append.mp hu with huo | hui
      · rw [above_outer hnd (o.leaves_subset_labels huo), relativeBounds_append hcut.not_pos,
          computeRelativeBound_of_not_mem hcut hch hlabel]
        have hrest := span_relativeBounds_fst hud hvd hne (m := m) hlo hndo ho (hdef.outer hnd) huo hvo hwo hio hb
        exact Nat.le_zero.mp (hrest ▸ Derivation.span_fst_mono ho (Nat.div_le_self _ _))
      · -- The bound is less than the strip, so the first strip is not moved.
        rw [above_inner hnd (i.leaves_subset_labels hui), relativeBounds_append hcut.not_pos,
          computeRelativeBound_of_not_mem hcut hch hlabel]
        have hlt := relativeBounds_fst_lt hud (b := b) hli hndi hi (hdef.innerChild hnd) hui hwi hii
        rw [hb, Nat.zero_add] at hlt
        rw [Nat.div_eq_of_lt hlt, Derivation.span_zero]
    · rw [Derivation.span_inner hnd (i.leaves_subset_labels hvi), (Derivation.split_extent (k := k) hch hnd _).2.2.2,
        Derivation.span_zero]
  | .binary (.divide _) _ _, _, _, _, _, _, hs, _, _, _, _, _, _ => absurd hs.1 id
  | .binary (.pos _) _ _, _, _, _, _, _, hs, _, _, _, _, _, _ => absurd hs.1 id
  | .binary (.bound _) _ _, _, _, _, _, _, hs, _, _, _, _, _, _ => absurd hs.1 id

end

end Scheduling
end Taco
