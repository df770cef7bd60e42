import Mathlib.Tactic

/-! The halving of a range of positions. -/

namespace Taco
namespace Bisection

def mid (a b : ℕ) : ℕ := (b + a) / 2

/-- The parts of a range that halving reaches, the range being one of them. -/
inductive Part : ℕ → ℕ → ℕ → ℕ → Prop where
  | whole {a b : ℕ} : Part a b a b
  | left {a b c d : ℕ} : 1 < b - a → Part a (mid a b) c d → Part a b c d
  | right {a b c d : ℕ} : 1 < b - a → Part (mid a b) b c d → Part a b c d

variable {a b c d : ℕ}

theorem lt_mid (h : 1 < b - a) : a < mid a b := by
  rw [mid]
  omega

theorem mid_lt (h : 1 < b - a) : mid a b < b := by
  rw [mid]
  omega

theorem Part.within (h : Part a b c d) : a ≤ c ∧ d ≤ b := by
  induction h with
  | whole => exact ⟨le_refl _, le_refl _⟩
  | left hwide _ ih => exact ⟨ih.1, ih.2.trans (mid_lt hwide).le⟩
  | right hwide _ ih => exact ⟨(lt_mid hwide).le.trans ih.1, ih.2⟩

/-- What holds of all parts of a range holds of it and of the parts of its halves. -/
theorem forall_part_iff {p : ℕ → ℕ → Prop} (h : 1 < b - a) :
    (∀ c d, Part a b c d → p c d) ↔
      p a b ∧ (∀ c d, Part a (mid a b) c d → p c d) ∧ ∀ c d, Part (mid a b) b c d → p c d := by
  constructor
  · exact fun hall => ⟨hall a b .whole, fun c d hpart => hall c d (.left h hpart), fun c d hpart => hall c d (.right h hpart)⟩
  · rintro ⟨hwhole, hleft, hright⟩ c d hpart
    cases hpart with
    | whole => exact hwhole
    | left _ hpart => exact hleft c d hpart
    | right _ hpart => exact hright c d hpart

theorem forall_part_iff_of_narrow {p : ℕ → ℕ → Prop} (h : ¬ 1 < b - a) : (∀ c d, Part a b c d → p c d) ↔ p a b := by
  constructor
  · exact fun hall => hall a b .whole
  · intro hwhole c d hpart
    cases hpart with
    | whole => exact hwhole
    | left hwide _ => exact absurd hwide h
    | right hwide _ => exact absurd hwide h

end Bisection
end Taco
