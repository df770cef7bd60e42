import Taco.Library.Dependencies
import Mathlib.Order.Extension.Linear

/-! Cycles of a relation, sets that no edge leaves, and total orders along the edges. -/

namespace Taco
namespace Dependencies

variable {α : Type} {r : α → α → Prop}

/-- Nothing outside is reached from a set that no edge leaves. -/
theorem mem_of_transGen {s : Set α} (hclosed : ∀ u ∈ s, ∀ v, r u v → v ∈ s) {u v : α} (hu : u ∈ s)
    (h : Relation.TransGen r u v) : v ∈ s := by
  induction h with
  | single huv => exact hclosed u hu _ huv
  | tail _ hvw ih => exact hclosed _ ih _ hvw

/-- No cycle passes through an element all of whose edges lead into a set that no edge leaves. -/
theorem not_transGen_self {s : Set α} (hclosed : ∀ u ∈ s, ∀ v, r u v → v ∈ s) {u : α} (hu : u ∉ s)
    (hnext : ∀ v, r u v → v ∈ s) : ¬ Relation.TransGen r u u := by
  intro h
  obtain ⟨v, huv, hvu⟩ := Relation.TransGen.head'_iff.mp h
  rcases Relation.reflTransGen_iff_eq_or_transGen.mp hvu with rfl | hvu
  · exact hu (hnext u huv)
  · exact hu (mem_of_transGen hclosed (hnext v huv) hvu)

/-- The edges of a relation without cycles go along a strict total order, and only those do. -/
theorem not_cyclic_iff_exists_order :
    ¬ Cyclic r ↔ ∃ lt : α → α → Prop, IsStrictTotalOrder α lt ∧ ∀ u v, r u v → lt u v := by
  constructor
  · intro hcyclic
    -- Without cycles, being reached is a partial order, and a linear one extends it.
    have hpartial : IsPartialOrder α (Relation.ReflTransGen r) :=
      { refl := fun _ => .refl
        trans := fun _ _ _ => .trans
        antisymm := fun u v huv hvu => by
          rcases Relation.reflTransGen_iff_eq_or_transGen.mp huv with rfl | huv
          · rfl
          · exact absurd ⟨u, huv.trans_left hvu⟩ hcyclic }
    obtain ⟨le, hle, hext⟩ := extend_partialOrder (Relation.ReflTransGen r)
    refine ⟨fun u v => le u v ∧ u ≠ v, ?_, fun u v huv => ⟨hext u v (.single huv), ?_⟩⟩
    · exact
        { trichotomous := fun u v hnuv hnvu => by
            by_contra hne
            rcases hle.total u v with h | h
            · exact hnuv ⟨h, hne⟩
            · exact hnvu ⟨h, Ne.symm hne⟩
          irrefl := fun u h => h.2 rfl
          trans := fun u v w huv hvw => by
            refine ⟨hle.trans u v w huv.1 hvw.1, ?_⟩
            rintro rfl
            exact huv.2 (hle.antisymm u v huv.1 hvw.1) }
    · rintro rfl
      exact hcyclic ⟨u, .single huv⟩
  · rintro ⟨lt, hlt, hsub⟩ ⟨u, hu⟩
    have hall : ∀ v, Relation.TransGen r u v → lt u v := fun v h => by
      induction h with
      | single huv => exact hsub _ _ huv
      | tail _ hvw ih => exact hlt.trans _ _ _ ih (hsub _ _ hvw)
    exact hlt.irrefl u (hall u hu)

end Dependencies
end Taco
