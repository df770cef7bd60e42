import Mathlib.Tactic

/-! Sets that are kept twice, as a guard for each element and as the list of their elements. -/

namespace Taco

variable {α : Type}

structure TrackedSet (α : Type) where
  guard : α → Bool
  list : List α

namespace TrackedSet

variable [DecidableEq α]

/-- Only the first insertion of an element lists it. -/
def insert (t : TrackedSet α) (a : α) : TrackedSet α :=
  if t.guard a then t else ⟨Function.update t.guard a true, t.list ++ [a]⟩

/-- The element is not in the set any more, but it stays in the list. -/
def release (t : TrackedSet α) (a : α) : TrackedSet α := { t with guard := Function.update t.guard a false }

/-- The guards and the list are those of one set, whose elements are listed once. -/
structure Valid (t : TrackedSet α) : Prop where
  nodup : t.list.Nodup
  guard_iff : ∀ a, t.guard a = true ↔ a ∈ t.list

variable {t : TrackedSet α} {a b : α} {l : List α}

omit [DecidableEq α] in
theorem valid_empty (h : ∀ a, t.guard a = false) (hlist : t.list = []) : t.Valid :=
  ⟨hlist ▸ List.nodup_nil, fun a => by simp [h a, hlist]⟩

theorem insert_of_guard (h : t.guard a = true) : t.insert a = t := if_pos h

theorem insert_of_not_guard (h : t.guard a = false) :
    t.insert a = ⟨Function.update t.guard a true, t.list ++ [a]⟩ := if_neg (by simp [h])

/-! ### Insertions -/

theorem Valid.mem_insert (h : t.Valid) : b ∈ (t.insert a).list ↔ b ∈ t.list ∨ b = a := by
  cases ha : t.guard a with
  | true =>
    rw [insert_of_guard ha]
    refine (or_iff_left_of_imp ?_).symm
    rintro rfl
    exact (h.guard_iff b).mp ha
  | false => rw [insert_of_not_guard ha, List.mem_append, List.mem_singleton]

theorem Valid.insert (h : t.Valid) : (t.insert a).Valid := by
  cases ha : t.guard a with
  | true => rwa [insert_of_guard ha]
  | false =>
    have hfresh : a ∉ t.list := fun hmem => by simp [(h.guard_iff a).mpr hmem] at ha
    rw [insert_of_not_guard ha]
    refine ⟨h.nodup.append (List.nodup_singleton a) (by simpa using hfresh), fun b => ?_⟩
    by_cases hb : b = a
    · simp [hb]
    · simp [hb, h.guard_iff b]

theorem Valid.foldl_insert (h : t.Valid) : (l.foldl TrackedSet.insert t).Valid := by
  induction l generalizing t with
  | nil => exact h
  | cons a l ih => exact ih h.insert

theorem Valid.mem_foldl_insert (h : t.Valid) : b ∈ (l.foldl TrackedSet.insert t).list ↔ b ∈ t.list ∨ b ∈ l := by
  induction l generalizing t with
  | nil => simp
  | cons a l ih => rw [List.foldl_cons, ih h.insert, h.mem_insert, List.mem_cons, or_assoc]

/-! ### Releases -/

@[simp] theorem release_list : (t.release a).list = t.list := rfl

theorem release_guard : (t.release a).guard b = true ↔ t.guard b = true ∧ b ≠ a := by
  by_cases hb : b = a
  · simp [release, hb]
  · simp [release, hb]

theorem foldl_release_list (l : List α) (t : TrackedSet α) : (l.foldl release t).list = t.list := by
  induction l generalizing t with
  | nil => rfl
  | cons a l ih => exact ih (t.release a)

theorem foldl_release_guard : (l.foldl release t).guard b = true ↔ t.guard b = true ∧ b ∉ l := by
  induction l generalizing t with
  | nil => simp
  | cons a l ih => rw [List.foldl_cons, ih, release_guard, List.mem_cons, not_or, and_assoc]

end TrackedSet
end Taco
