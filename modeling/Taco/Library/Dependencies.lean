import Mathlib.Tactic

/-! Orders of elements behind those they depend on, picked one after the other. -/

namespace Taco
namespace Dependencies

variable {α : Type} {deps : α → List α} {l vars : List α}

/-- An element depends on others, directly or not, and on itself. -/
def Cyclic (r : α → α → Prop) : Prop := ∃ v, Relation.TransGen r v v

theorem Cyclic.mono {r s : α → α → Prop} (h : ∀ u v, r u v → s u v) (hcyclic : Cyclic r) : Cyclic s :=
  hcyclic.imp fun _ hv => Relation.TransGen.mono h _ _ hv

/-- Elements that grow along a relation are on no cycle. -/
theorem not_cyclic_of_lt {r : α → α → Prop} (f : α → ℕ) (h : ∀ u v, r u v → f u < f v) : ¬ Cyclic r := by
  rintro ⟨v, hv⟩
  have hlt : ∀ u w, Relation.TransGen r u w → f u < f w := by
    intro u w hstep
    induction hstep with
    | single hdep => exact h _ _ hdep
    | tail _ hdep ih => exact ih.trans (h _ _ hdep)
  exact lt_irrefl _ (hlt v v hv)

/-- `u` is a dependency of `v`. -/
def Before (deps : α → List α) (u v : α) : Prop := u ∈ deps v

/-- Each element stands behind its dependencies. -/
def Respects (deps : α → List α) (l : List α) : Prop :=
  ∀ before v after, l = before ++ v :: after → ∀ u ∈ deps v, u ∈ before

theorem respects_nil : Respects deps [] := by
  intro before v after h
  cases before <;> cases h

theorem Respects.idxOf_lt [DecidableEq α] (h : Respects deps l) {u v : α} (hv : v ∈ l) (hu : u ∈ deps v) :
    l.idxOf u < l.idxOf v := by
  obtain ⟨before, after, rfl, hfirst⟩ := List.eq_append_cons_of_mem hv
  have hbefore := h before v after rfl u hu
  rw [List.idxOf_append_of_mem hbefore, List.idxOf_append_of_notMem hfirst]
  exact Nat.lt_of_lt_of_le (List.idxOf_lt_length_of_mem hbefore) (Nat.le_add_right _ _)

/-- Dependencies that an order respects are not cyclic. -/
theorem Respects.not_cyclic [DecidableEq α] (h : Respects deps l) (hall : ∀ v, deps v ≠ [] → v ∈ l) :
    ¬ Cyclic (Before deps) :=
  not_cyclic_of_lt (l.idxOf ·) fun _ v hdep => h.idxOf_lt (hall v (List.ne_nil_of_mem hdep)) hdep

/-- Elements that all depend on one of them are on a cycle. -/
theorem cyclic_of_no_free (hne : vars ≠ []) (hdeps : ∀ v ∈ vars, ∃ u ∈ vars, u ∈ deps v) : Cyclic (Before deps) := by
  by_contra hcyclic
  let r := Relation.TransGen (Before deps)
  have : IsTrans α r := ⟨fun _ _ _ => Relation.TransGen.trans⟩
  have : Std.Irrefl r := ⟨fun v hv => hcyclic ⟨v, hv⟩⟩
  have : IsStrictOrder α r := ⟨⟩
  obtain ⟨v, hv⟩ := List.exists_mem_of_ne_nil vars hne
  have hwf : Set.WellFoundedOn {v | v ∈ vars} r := vars.finite_toSet.wellFoundedOn
  obtain ⟨m, hm, hmin⟩ := hwf.has_min Set.univ ⟨⟨v, hv⟩, trivial⟩
  obtain ⟨u, hu, hdep⟩ := hdeps m.1 m.2
  exact hmin ⟨u, hu⟩ trivial (Relation.TransGen.single hdep)

end Dependencies
end Taco
