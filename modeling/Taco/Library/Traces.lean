import Mathlib.Tactic

/-! The values of a partial function on an interval, in order. -/

namespace Taco

/-- The arguments from `c` to `c'` at which the function is defined, with its values, in increasing order. -/
structure Trace {V : Type*} (f : ℤ → Option V) (c c' : ℤ) (out : List (ℤ × V)) : Prop where
  sorted : out.Pairwise fun x y => x.1 < y.1
  mem_iff : ∀ k v, (k, v) ∈ out ↔ (c ≤ k ∧ k < c') ∧ f k = some v

namespace Trace

variable {V : Type*} {f g : ℤ → Option V} {c c' c'' k : ℤ} {v : V} {out rest : List (ℤ × V)}

theorem nil (h : ∀ k, c ≤ k → k < c' → f k = none) : Trace f c c' [] := by
  refine ⟨List.Pairwise.nil, fun k v => ?_⟩
  simp only [List.not_mem_nil, false_iff, not_and]
  intro hk hv
  rw [h k hk.1 hk.2] at hv
  cases hv

theorem append (h : Trace f c c' out) (h' : Trace f c' c'' rest) (hle : c ≤ c') (hle' : c' ≤ c'') :
    Trace f c c'' (out ++ rest) := by
  refine ⟨List.pairwise_append.mpr ⟨h.sorted, h'.sorted, ?_⟩, fun k v => ?_⟩
  · rintro ⟨k, v⟩ hk ⟨k', v'⟩ hk'
    exact lt_of_lt_of_le ((h.mem_iff k v).mp hk).1.2 ((h'.mem_iff k' v').mp hk').1.1
  · rw [List.mem_append, h.mem_iff, h'.mem_iff, ← or_and_right]
    refine and_congr_left' ⟨?_, fun hk => ?_⟩
    · rintro (hk | hk) <;> omega
    · rcases lt_or_ge k c' with hlt | hge
      · exact Or.inl ⟨hk.1, hlt⟩
      · exact Or.inr ⟨hge, hk.2⟩

/-- The next argument at which the function is defined. -/
theorem single (h : f k = some v) (hle : c ≤ k) (hbefore : ∀ j, c ≤ j → j < k → f j = none) : Trace f c (k + 1) [(k, v)] := by
  refine ⟨List.pairwise_singleton _ _, fun j w => ?_⟩
  rw [List.mem_singleton, Prod.mk.injEq]
  constructor
  · rintro ⟨rfl, rfl⟩
    exact ⟨⟨hle, by omega⟩, h⟩
  · rintro ⟨⟨hj, hlt⟩, hw⟩
    have hjk : j = k := by
      by_contra hne
      rw [hbefore j hj (by omega)] at hw
      cases hw
    subst hjk
    exact ⟨rfl, Option.some.inj (hw.symm.trans h)⟩

theorem congr (h : Trace f c c' out) (hfg : ∀ k, c ≤ k → k < c' → f k = g k) : Trace g c c' out :=
  ⟨h.sorted, fun k v => (h.mem_iff k v).trans (and_congr_right fun hk => by rw [hfg k hk.1 hk.2])⟩

theorem unique (h : Trace f c c' out) (h' : Trace f c c' rest) : out = rest := by
  refine @List.Perm.eq_of_pairwise _ (fun x y => x.1 < y.1) _ _ (fun x y _ _ hlt hgt => absurd hlt (lt_asymm hgt)) h.sorted
    h'.sorted ?_
  refine (List.perm_ext_iff_of_nodup ?_ ?_).mpr fun x => (h.mem_iff x.1 x.2).trans (h'.mem_iff x.1 x.2).symm
  · exact h.sorted.imp fun hlt => ne_of_apply_ne Prod.fst hlt.ne
  · exact h'.sorted.imp fun hlt => ne_of_apply_ne Prod.fst hlt.ne

/-- The values that are read back. -/
theorem lookup (h : Trace f c c' out) (hk : c ≤ k) (hk' : k < c') : out.lookup k = f k := by
  cases hl : out.lookup k with
  | none =>
    cases hf : f k with
    | none => rfl
    | some v =>
      have hne := List.lookup_eq_none_iff.mp hl (k, v) ((h.mem_iff k v).mpr ⟨⟨hk, hk'⟩, hf⟩)
      simp at hne
  | some v =>
    obtain ⟨before, after, rfl, -⟩ := List.lookup_eq_some_iff.mp hl
    exact (((h.mem_iff k v).mp (by simp)).2).symm

end Trace

end Taco
