import Mathlib.Tactic

/-! Consecutive segments of given lengths, and cursors that fill them. -/

namespace Taco

/-! ### Starts -/

/-- The start of a segment: the sum of the lengths before it. -/
def segmentStart (counts : ℕ → ℕ) (p : ℕ) : ℕ := ∑ i ∈ Finset.range p, counts i

section

variable {counts : ℕ → ℕ} {p p' q : ℕ}

@[simp] theorem segmentStart_zero : segmentStart counts 0 = 0 := Finset.sum_range_zero counts

theorem segmentStart_succ : segmentStart counts (p + 1) = segmentStart counts p + counts p := Finset.sum_range_succ counts p

theorem segmentStart_mono (h : p ≤ p') : segmentStart counts p ≤ segmentStart counts p' :=
  Finset.sum_le_sum_of_subset (Finset.range_mono h)

/-- Segments do not overlap. -/
theorem segment_unique (hstart : segmentStart counts p ≤ q) (hend : q < segmentStart counts (p + 1))
    (hstart' : segmentStart counts p' ≤ q) (hend' : q < segmentStart counts (p' + 1)) : p = p' := by
  rcases lt_trichotomy p p' with hlt | heq | hgt
  · exact absurd (hend.trans_le (segmentStart_mono hlt)) (not_lt.mpr hstart')
  · exact heq
  · exact absurd (hend'.trans_le (segmentStart_mono hgt)) (not_lt.mpr hstart)

end

/-! ### Cursors -/

/-- What the cursors hand out to a sequence of segments: each takes the position of its cursor, which advances. -/
def handOut : List ℕ → (ℕ → ℕ) → List ℕ × (ℕ → ℕ)
  | [], cursor => ([], cursor)
  | p :: ps, cursor =>
    let rest := handOut ps (Function.update cursor p (cursor p + 1))
    (cursor p :: rest.1, rest.2)

section

variable {ps : List ℕ} {cursor : ℕ → ℕ} {p q : ℕ}

@[simp] theorem handOut_length : ∀ (ps : List ℕ) (cursor : ℕ → ℕ), (handOut ps cursor).1.length = ps.length
  | [], _ => rfl
  | p :: ps, cursor => congrArg Nat.succ (handOut_length ps (Function.update cursor p (cursor p + 1)))

/-- A cursor has advanced once for each position that it has handed out. -/
theorem handOut_cursor (ps : List ℕ) (cursor : ℕ → ℕ) (p : ℕ) : (handOut ps cursor).2 p = cursor p + ps.count p := by
  induction ps generalizing cursor with
  | nil => rfl
  | cons a ps ih =>
    rw [handOut, ih, List.count_cons]
    by_cases h : p = a
    · subst h
      simp
      omega
    · simp [h, Ne.symm h]

/-- The positions that a cursor hands out are those that it passes. -/
theorem mem_zip_handOut : (p, q) ∈ ps.zip (handOut ps cursor).1 ↔ cursor p ≤ q ∧ q < cursor p + ps.count p := by
  induction ps generalizing cursor with
  | nil => simp [handOut]
  | cons a ps ih =>
    rw [handOut, List.zip_cons_cons, List.mem_cons, ih, List.count_cons]
    by_cases h : p = a
    · subst h
      simp only [Prod.mk.injEq, true_and, Function.update_self, beq_self_eq_true, if_true]
      omega
    · simp [h, Ne.symm h]

/-- No position is handed out twice for one segment. -/
theorem nodup_zip_handOut (ps : List ℕ) (cursor : ℕ → ℕ) : (ps.zip (handOut ps cursor).1).Nodup := by
  induction ps generalizing cursor with
  | nil => exact List.nodup_nil
  | cons a ps ih =>
    rw [handOut, List.zip_cons_cons, List.nodup_cons]
    refine ⟨fun hmem => ?_, ih _⟩
    have hpassed := (mem_zip_handOut.mp hmem).1
    rw [Function.update_self] at hpassed
    omega

/-- Cursors that start at the segments and hand out as many positions as these are long fill them. -/
theorem handOut_fills {counts : ℕ → ℕ} {n : ℕ} (hstart : ∀ p < n, cursor p = segmentStart counts p)
    (hmem : ∀ p ∈ ps, p < n) (hcount : ∀ p < n, ps.count p = counts p) :
    (handOut ps cursor).1.Nodup ∧ ∀ p < n, ∀ q, (p, q) ∈ ps.zip (handOut ps cursor).1 ↔
      segmentStart counts p ≤ q ∧ q < segmentStart counts (p + 1) := by
  have hfills : ∀ p < n, ∀ q, (p, q) ∈ ps.zip (handOut ps cursor).1 ↔
      segmentStart counts p ≤ q ∧ q < segmentStart counts (p + 1) := fun p hp q => by
    rw [mem_zip_handOut, hstart p hp, hcount p hp, segmentStart_succ]
  have hpositions : (ps.zip (handOut ps cursor).1).map Prod.snd = (handOut ps cursor).1 :=
    List.map_snd_zip (handOut_length ps cursor).le
  refine ⟨?_, hfills⟩
  rw [← hpositions]
  refine List.Nodup.map_on ?_ (nodup_zip_handOut ps cursor)
  rintro ⟨p, q⟩ hx ⟨p', q'⟩ hy rfl
  have hp := hmem p (List.of_mem_zip hx).1
  have hp' := hmem p' (List.of_mem_zip hy).1
  obtain ⟨h₁, h₂⟩ := (hfills p hp q).mp hx
  obtain ⟨h₃, h₄⟩ := (hfills p' hp' q).mp hy
  rw [segment_unique h₁ h₂ h₃ h₄]

end

end Taco
