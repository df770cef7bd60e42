import Mathlib.Tactic

/-! Arrays with a capacity, and the lists that they hold. -/

namespace Taco

/-- An array of some capacity. What its data are beyond the capacity is what a reallocation will leave there. -/
structure Growable (A : Type*) where
  capacity : ℕ
  data : ℕ → A

namespace Growable

variable {A B : Type*}

/-- A store; outside of the array there is none. -/
def store (a : Growable A) (i : ℕ) (x : A) : Option (Growable A) :=
  if i < a.capacity then some { a with data := Function.update a.data i x } else none

/-- A reallocation, which keeps the data. -/
def resize (a : Growable A) (capacity : ℕ) : Growable A := { a with capacity := capacity }

/-- One value stored at `n` places from `lower` on. -/
def fill (a : Growable A) (x : A) (lower n : ℕ) : Option (Growable A) :=
  (List.range' lower n).foldlM (fun a i => a.store i x) a

/-- The beginning of the array is as the list says. -/
structure Holds (R : B → A → Prop) (a : Growable A) (l : List B) : Prop where
  fits : l.length ≤ a.capacity
  stored : ∀ i b, l[i]? = some b → R b (a.data i)

section

variable {R : B → A → Prop} {a : Growable A} {l r : List B} {b b' : B} {x : A}

theorem holds_nil (R : B → A → Prop) (a : Growable A) : a.Holds R [] :=
  ⟨Nat.zero_le _, fun i b h => by simp at h⟩

theorem Holds.resize (h : a.Holds R l) {capacity : ℕ} (hle : l.length ≤ capacity) : (a.resize capacity).Holds R l :=
  ⟨hle, h.stored⟩

theorem Holds.left (h : a.Holds R (l ++ r)) : a.Holds R l := by
  refine ⟨?_, fun i b hb => h.stored i b ?_⟩
  · have hfits := h.fits
    rw [List.length_append] at hfits
    omega
  · rw [List.getElem?_append_left (List.getElem?_eq_some_iff.mp hb).1, hb]

/-- What is at one place may be described differently. -/
theorem Holds.change (h : a.Holds R (l ++ b :: r)) (hb : R b (a.data l.length) → R b' (a.data l.length)) :
    a.Holds R (l ++ b' :: r) := by
  refine ⟨by simpa using h.fits, fun i c hc => ?_⟩
  rcases lt_trichotomy i l.length with hi | rfl | hi
  · rw [List.getElem?_append_left hi] at hc
    exact h.stored i c (by rw [List.getElem?_append_left hi, hc])
  · rw [List.getElem?_append_right (Nat.le_refl _), Nat.sub_self, List.getElem?_cons_zero, Option.some.injEq] at hc
    exact hc ▸ hb (h.stored l.length b (by simp))
  · obtain ⟨k, hk⟩ : ∃ k, i - l.length = k + 1 := ⟨i - l.length - 1, by omega⟩
    rw [List.getElem?_append_right hi.le, hk, List.getElem?_cons_succ] at hc
    exact h.stored i c (by rw [List.getElem?_append_right hi.le, hk, List.getElem?_cons_succ, hc])

/-- What is behind the list may be anything that is in the relation. -/
theorem Holds.append_replicate (h : a.Holds R l) {n : ℕ} (hle : l.length + n ≤ a.capacity) (hb : ∀ x, R b x) :
    a.Holds R (l ++ List.replicate n b) := by
  refine ⟨by rwa [List.length_append, List.length_replicate], fun i c hc => ?_⟩
  rcases Nat.lt_or_ge i l.length with hi | hi
  · rw [List.getElem?_append_left hi] at hc
    exact h.stored i c hc
  · rw [List.getElem?_append_right hi] at hc
    rw [List.eq_of_mem_replicate (List.mem_of_getElem? hc)]
    exact hb _

/-- A store at one place, and a list that differs there only. -/
theorem Holds.store (h : a.Holds R l) {k : ℕ} (hk : k < a.capacity) {m : List B} (hm : m.length ≤ a.capacity)
    (hsame : ∀ i ≠ k, m[i]? = l[i]?) (hb : ∀ c, m[k]? = some c → R c x) :
    ∃ a', a.store k x = some a' ∧ a'.Holds R m ∧ a'.capacity = a.capacity := by
  refine ⟨_, if_pos hk, ⟨hm, fun i c hc => ?_⟩, rfl⟩
  show R c (Function.update a.data k x i)
  by_cases hi : i = k
  · subst hi
    rw [Function.update_self]
    exact hb c hc
  · rw [Function.update_of_ne hi]
    exact h.stored i c ((hsame i hi).symm.trans hc)

/-- A store behind the list appends to it. -/
theorem Holds.push (h : a.Holds R l) (hlt : l.length < a.capacity) (hb : R b x) :
    ∃ a', a.store l.length x = some a' ∧ a'.Holds R (l ++ [b]) ∧ a'.capacity = a.capacity := by
  refine h.store hlt (by simpa using hlt) (fun i hi => ?_) fun c hc => ?_
  · rcases hi.lt_or_gt with hi | hi
    · rw [List.getElem?_append_left hi]
    · rw [List.getElem?_eq_none hi.le, List.getElem?_eq_none (by rw [List.length_append, List.length_singleton]; omega)]
  · rw [List.getElem?_concat_length, Option.some.injEq] at hc
    exact hc ▸ hb

/-- A store at one place of the list changes that place. -/
theorem Holds.set (h : a.Holds R (l ++ b :: r)) (hb : R b' x) :
    ∃ a', a.store l.length x = some a' ∧ a'.Holds R (l ++ b' :: r) ∧ a'.capacity = a.capacity := by
  have hfits := h.fits
  rw [List.length_append, List.length_cons] at hfits
  refine h.store (by omega) (by simpa using hfits) (fun i hi => ?_) fun c hc => ?_
  · rcases hi.lt_or_gt with hi | hi
    · rw [List.getElem?_append_left hi, List.getElem?_append_left hi]
    · obtain ⟨k, hk⟩ : ∃ k, i - l.length = k + 1 := ⟨i - l.length - 1, by omega⟩
      rw [List.getElem?_append_right hi.le, List.getElem?_append_right hi.le, hk, List.getElem?_cons_succ,
        List.getElem?_cons_succ]
  · rw [List.getElem?_append_right (Nat.le_refl _), Nat.sub_self, List.getElem?_cons_zero, Option.some.injEq] at hc
    exact hc ▸ hb

theorem fill_succ (a : Growable A) (x : A) (lower n : ℕ) :
    a.fill x lower (n + 1) = (a.store lower x).bind fun a => a.fill x (lower + 1) n := rfl

/-- A value stored behind the list appends it as often as it is stored. -/
theorem Holds.fill (h : a.Holds R l) {n : ℕ} (hle : l.length + n ≤ a.capacity) (hb : R b x) :
    ∃ a', a.fill x l.length n = some a' ∧ a'.Holds R (l ++ List.replicate n b) ∧ a'.capacity = a.capacity := by
  induction n generalizing a l with
  | zero => exact ⟨a, rfl, by simpa using h, rfl⟩
  | succ n ih =>
    obtain ⟨a₁, hstore, hholds, hcapacity⟩ := h.push (by omega) hb
    obtain ⟨a₂, hfill, hholds', hcapacity'⟩ := ih hholds (by
      rw [List.length_append, List.length_singleton, hcapacity]
      omega)
    refine ⟨a₂, ?_, ?_, hcapacity'.trans hcapacity⟩
    · rw [fill_succ, hstore, Option.bind_some]
      rwa [List.length_append, List.length_singleton] at hfill
    · rw [List.replicate_succ, ← List.singleton_append, ← List.append_assoc]
      exact hholds'

/-- What is at a place of a list of values. -/
theorem Holds.data_eq {l : List A} (h : a.Holds Eq l) {i : ℕ} {x : A} (hx : l[i]? = some x) : a.data i = x :=
  (h.stored i x hx).symm

end

end Growable
end Taco
