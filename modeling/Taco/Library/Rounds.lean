import Mathlib.Tactic

/-! What functions that are run for a number of rounds settle on, with enough of them. -/

namespace Taco

variable {α β : Type*}

/-- With enough rounds the result is `o`, and with fewer there is none. -/
def Settles (f : ℕ → Option α) (o : Option α) : Prop :=
  (∀ n a, f n = some a → o = some a) ∧ ∀ a, o = some a → ∃ bound, ∀ n ≥ bound, f n = some a

namespace Settles

variable {f f' : ℕ → Option α} {o o' : Option α}

theorem const (o : Option α) : Settles (fun _ => o) o := ⟨fun _ _ h => h, fun _ h => ⟨0, fun _ _ => h⟩⟩

theorem congr (h : Settles f o) (hf : ∀ n, f' n = f n) : Settles f' o := by
  rwa [show f' = f from funext hf]

/-- A function without rounds that has no result is not changed by its first round. -/
theorem of_succ (h0 : f 0 = none) (h : Settles (fun n => f (n + 1)) o) : Settles f o := by
  refine ⟨fun n a hn => ?_, fun a ho => ?_⟩
  · cases n with
    | zero => rw [h0] at hn; cases hn
    | succ n => exact h.1 n a hn
  · obtain ⟨bound, hbound⟩ := h.2 a ho
    refine ⟨bound + 1, fun n hn => ?_⟩
    obtain ⟨m, rfl⟩ := Nat.exists_eq_add_of_le' (Nat.le_trans (Nat.le_add_left 1 bound) hn)
    exact hbound m (Nat.le_of_add_le_add_right hn)

theorem bind {g : α → ℕ → Option β} {k : α → Option β} (h : Settles f o)
    (hg : ∀ a, o = some a → Settles (g a) (k a)) : Settles (fun n => (f n).bind (g · n)) (o.bind k) := by
  refine ⟨fun n b hn => ?_, fun b hb => ?_⟩
  · obtain ⟨a, ha, hb⟩ := Option.bind_eq_some_iff.mp hn
    have ho := h.1 n a ha
    rw [ho]
    exact (hg a ho).1 n b hb
  · obtain ⟨a, ha, hb⟩ := Option.bind_eq_some_iff.mp hb
    obtain ⟨m, hm⟩ := h.2 a ha
    obtain ⟨m', hm'⟩ := (hg a ha).2 b hb
    refine ⟨max m m', fun n hn => ?_⟩
    dsimp only
    rw [hm n (le_trans (le_max_left _ _) hn)]
    exact hm' n (le_trans (le_max_right _ _) hn)

theorem bind_none {g : α → ℕ → Option β} (h : Settles f none) : Settles (fun n => (f n).bind (g · n)) none :=
  h.bind (k := fun _ => none) fun a ha => by cases ha

theorem bind_some {g : α → ℕ → Option β} {a : α} {q : Option β} (h : Settles f (some a)) (hg : Settles (g a) q) :
    Settles (fun n => (f n).bind (g · n)) q :=
  h.bind (k := fun _ => q) fun b hb => by
    cases hb
    exact hg

/-- The rest of a function, run on what its first part settles on. -/
theorem bind_map {γ : Type*} {q : Option γ} {r : γ → α} {g : α → ℕ → Option β} {k : γ → Option β}
    (h : Settles f (q.map r)) (hg : ∀ c, q = some c → Settles (g (r c)) (k c)) :
    Settles (fun n => (f n).bind (g · n)) (q.bind k) := by
  cases q with
  | none => exact h.bind_none
  | some c => exact h.bind_some (hg c rfl)

theorem map {g : α → β} (h : Settles f o) : Settles (fun n => (f n).map g) (o.map g) := by
  refine ⟨fun n b hn => ?_, fun b hb => ?_⟩
  · obtain ⟨a, ha, rfl⟩ := Option.map_eq_some_iff.mp hn
    rw [h.1 n a ha, Option.map_some]
  · obtain ⟨a, ha, rfl⟩ := Option.map_eq_some_iff.mp hb
    obtain ⟨m, hm⟩ := h.2 a ha
    exact ⟨m, fun n hn => by dsimp only; rw [hm n hn, Option.map_some]⟩

/-- A loop that ends after no number of rounds has no result. -/
theorem of_none (h : ∀ n, f n = none) : Settles f none :=
  ⟨fun n a hn => absurd (h n ▸ hn) (by simp), fun a ha => absurd ha (by simp)⟩

theorem unique (h : Settles f o) (h' : Settles f o') : o = o' := by
  cases o with
  | none =>
    cases o' with
    | none => rfl
    | some a =>
      obtain ⟨n, hn⟩ := h'.2 a rfl
      exact h.1 n a (hn n le_rfl)
  | some a =>
    obtain ⟨n, hn⟩ := h.2 a rfl
    exact (h'.1 n a (hn n le_rfl)).symm

theorem exists_iff (h : Settles f o) : (∃ n a, f n = some a) ↔ ∃ a, o = some a := by
  refine ⟨fun ⟨n, a, hn⟩ => ⟨a, h.1 n a hn⟩, fun ⟨a, ha⟩ => ?_⟩
  obtain ⟨n, hn⟩ := h.2 a ha
  exact ⟨n, a, hn n le_rfl⟩

end Settles
end Taco
