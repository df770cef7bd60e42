import Mathlib.Tactic

/-! Lists that visit each number of a range once, and the pairs of two ranges. -/

namespace Taco

/-- Each value of `[lo, hi)` occurs once, and no other one does. -/
def VisitsOnce (trace : List ℕ) (lo hi : ℕ) : Prop := ∀ x, trace.count x = if lo ≤ x ∧ x < hi then 1 else 0

theorem visitsOnce_iff_nodup {trace : List ℕ} {lo hi : ℕ} :
    VisitsOnce trace lo hi ↔ trace.Nodup ∧ ∀ x, x ∈ trace ↔ lo ≤ x ∧ x < hi := by
  constructor
  · intro h
    refine ⟨List.nodup_iff_count_le_one.mpr fun x => ?_, fun x => ?_⟩
    · rw [h x]
      split_ifs <;> omega
    · rw [← List.count_pos_iff, h x]
      split_ifs with hx
      · exact iff_of_true Nat.one_pos hx
      · exact iff_of_false (Nat.lt_irrefl 0) hx
  · rintro ⟨hnodup, hmem⟩ x
    split_ifs with hx
    · exact List.count_eq_one_of_mem hnodup ((hmem x).mpr hx)
    · exact List.count_eq_zero.mpr fun h => hx ((hmem x).mp h)

theorem VisitsOnce.not_twice {trace : List ℕ} {lo hi : ℕ} (h : VisitsOnce trace lo hi) : trace.Nodup :=
  (visitsOnce_iff_nodup.mp h).1

theorem VisitsOnce.mem_iff {trace : List ℕ} {lo hi x : ℕ} (h : VisitsOnce trace lo hi) :
    x ∈ trace ↔ lo ≤ x ∧ x < hi := (visitsOnce_iff_nodup.mp h).2 x

theorem visitsOnce_range' (lo m : ℕ) : VisitsOnce (List.range' lo m) lo (lo + m) :=
  visitsOnce_iff_nodup.mpr ⟨List.nodup_range', fun _ => List.mem_range'_1⟩

/-- Iterations that are filtered and mapped visit a range once if no value has two sources and the values are those
    of the range. -/
theorem visitsOnce_filterMap {α : Type} {l : List α} {f : α → Option ℕ} {lo hi : ℕ} (hl : l.Nodup) :
    VisitsOnce (l.filterMap f) lo hi ↔
      (∀ a ∈ l, ∀ b ∈ l, ∀ x, f a = some x → f b = some x → a = b) ∧
        ∀ x, (∃ a ∈ l, f a = some x) ↔ lo ≤ x ∧ x < hi := by
  rw [visitsOnce_iff_nodup]
  refine and_congr ?_ (forall_congr' fun x => by rw [List.mem_filterMap])
  induction l with
  | nil => simp
  | cons a l ih =>
    obtain ⟨ha, hl⟩ := List.nodup_cons.mp hl
    have hrest : (∀ b ∈ a :: l, ∀ c ∈ a :: l, ∀ x, f b = some x → f c = some x → b = c) →
        ∀ b ∈ l, ∀ c ∈ l, ∀ x, f b = some x → f c = some x → b = c :=
      fun h b hb c hc => h b (List.mem_cons_of_mem a hb) c (List.mem_cons_of_mem a hc)
    cases hfa : f a with
    | none =>
      rw [List.filterMap_cons_none hfa, ih hl]
      refine ⟨fun h b hb c hc x hx hx' => ?_, hrest⟩
      rcases List.mem_cons.mp hb with rfl | hb
      · rw [hfa] at hx; cases hx
      · rcases List.mem_cons.mp hc with rfl | hc
        · rw [hfa] at hx'; cases hx'
        · exact h b hb c hc x hx hx'
    | some x =>
      rw [List.filterMap_cons_some hfa, List.nodup_cons, ih hl]
      constructor
      · rintro ⟨hx, h⟩ b hb c hc y hy hy'
        rcases List.mem_cons.mp hb with hba | hbl <;> rcases List.mem_cons.mp hc with hca | hcl
        · rw [hba, hca]
        · have hxy := Option.some.inj (hfa.symm.trans (hba ▸ hy))
          exact absurd (List.mem_filterMap.mpr ⟨c, hcl, hxy ▸ hy'⟩) hx
        · have hxy := Option.some.inj (hfa.symm.trans (hca ▸ hy'))
          exact absurd (List.mem_filterMap.mpr ⟨b, hbl, hxy ▸ hy⟩) hx
        · exact h b hbl c hcl y hy hy'
      · refine fun h => ⟨fun hx => ?_, hrest h⟩
        obtain ⟨b, hb, hfb⟩ := List.mem_filterMap.mp hx
        exact ha (h a List.mem_cons_self b (List.mem_cons_of_mem a hb) x hfa hfb ▸ hb)

/-! ### Strips -/

theorem div_strip {s o i : ℕ} (hi : i < s) : (o * s + i) / s = o := by
  rw [Nat.mul_comm, Nat.mul_add_div (by omega), Nat.div_eq_of_lt hi, Nat.add_zero]

theorem mod_strip {s o i : ℕ} (hi : i < s) : (o * s + i) % s = i := by
  rw [Nat.mul_add_mod_self_right, Nat.mod_eq_of_lt hi]

theorem strip_lt {s o i c : ℕ} (ho : o < c) (hi : i < s) : o * s + i < c * s := by
  have := Nat.mul_le_mul_right s (Nat.succ_le_of_lt ho)
  rw [Nat.succ_mul] at this
  omega

/-! ### Pairs -/

/-- The pairs of `[a, b) × [c, d)` in lexicographic order. -/
def pairs (a b c d : ℕ) : List (ℕ × ℕ) :=
  (List.range' a (b - a)).flatMap fun i => (List.range' c (d - c)).map fun j => (i, j)

theorem mem_pairs {a b c d i j : ℕ} : (i, j) ∈ pairs a b c d ↔ (a ≤ i ∧ i < b) ∧ c ≤ j ∧ j < d := by
  unfold pairs
  rw [List.mem_flatMap]
  constructor
  · rintro ⟨i', hi, hj⟩
    obtain ⟨j', hj', hpair⟩ := List.mem_map.mp hj
    obtain ⟨rfl, rfl⟩ := Prod.mk.inj hpair
    rw [List.mem_range'_1] at hi hj'
    omega
  · rintro ⟨hi, hj⟩
    exact ⟨i, List.mem_range'_1.mpr (by omega), List.mem_map.mpr ⟨j, List.mem_range'_1.mpr (by omega), rfl⟩⟩

theorem pairs_of_le {a b c d : ℕ} (h : b ≤ a ∨ d ≤ c) : pairs a b c d = [] := by
  rw [List.eq_nil_iff_forall_not_mem]
  rintro ⟨i, j⟩ hmem
  have := mem_pairs.mp hmem
  omega

theorem nodup_pairs (a b c d : ℕ) : (pairs a b c d).Nodup := by
  refine List.nodup_flatMap.mpr ⟨fun i _ => ?_, ?_⟩
  · exact (List.nodup_range' (s := c) (n := d - c)).map fun j j' h => (Prod.mk.inj h).2
  · refine (List.nodup_range' (s := a) (n := b - a)).imp fun {i i'} hne => ?_
    rintro ⟨x, y⟩ h h'
    obtain ⟨_, -, h⟩ := List.mem_map.mp h
    obtain ⟨_, -, h'⟩ := List.mem_map.mp h'
    exact hne ((Prod.mk.inj h).1.trans (Prod.mk.inj h').1.symm)

/-- Each value of `[lo, hi)` is that of one pair, and no pair has another value. -/
structure EachOnce (a b c d : ℕ) (f : ℕ → ℕ → Option ℕ) (lo hi : ℕ) : Prop where
  unique : ∀ i j i' j' x, (i, j) ∈ pairs a b c d → (i', j') ∈ pairs a b c d → f i j = some x → f i' j' = some x →
    i = i' ∧ j = j'
  covers : ∀ x, (∃ i j, (i, j) ∈ pairs a b c d ∧ f i j = some x) ↔ lo ≤ x ∧ x < hi

/-- Iterations over pairs, in either nesting of the two loops. -/
theorem visitsOnce_pairs {a b c d lo hi : ℕ} {f : ℕ → ℕ → Option ℕ} :
    (VisitsOnce ((pairs a b c d).filterMap fun p => f p.1 p.2) lo hi ↔ EachOnce a b c d f lo hi) ∧
      (VisitsOnce ((pairs c d a b).filterMap fun p => f p.2 p.1) lo hi ↔ EachOnce a b c d f lo hi) := by
  have hswap : ∀ i j, (j, i) ∈ pairs c d a b ↔ (i, j) ∈ pairs a b c d := fun i j => by
    rw [mem_pairs, mem_pairs, and_comm]
  rw [visitsOnce_filterMap (nodup_pairs a b c d), visitsOnce_filterMap (nodup_pairs c d a b)]
  constructor
  · constructor
    · rintro ⟨hinj, hmem⟩
      refine ⟨fun i j i' j' x h h' hx hx' => Prod.mk.inj (hinj (i, j) h (i', j') h' x hx hx'), fun x => ?_⟩
      rw [← hmem x, Prod.exists]
    · rintro ⟨hunique, hcovers⟩
      refine ⟨?_, fun x => by rw [← hcovers x, Prod.exists]⟩
      rintro ⟨i, j⟩ h ⟨i', j'⟩ h' x hx hx'
      exact Prod.ext_iff.mpr (hunique i j i' j' x h h' hx hx')
  · constructor
    · rintro ⟨hinj, hmem⟩
      refine ⟨fun i j i' j' x h h' hx hx' => ?_, fun x => ?_⟩
      · exact (Prod.mk.inj (hinj (j, i) ((hswap i j).mpr h) (j', i') ((hswap i' j').mpr h') x hx hx')).symm
      · rw [← hmem x, Prod.exists, exists_comm]
        exact exists_congr fun j => exists_congr fun i => and_congr_left' (hswap i j).symm
    · rintro ⟨hunique, hcovers⟩
      refine ⟨?_, fun x => ?_⟩
      · rintro ⟨j, i⟩ h ⟨j', i'⟩ h' x hx hx'
        exact Prod.ext_iff.mpr (hunique i j i' j' x ((hswap i j).mp h) ((hswap i' j').mp h') hx hx').symm
      · rw [← hcovers x, Prod.exists, exists_comm]
        exact exists_congr fun i => exists_congr fun j => and_congr_left' (hswap i j)

end Taco
