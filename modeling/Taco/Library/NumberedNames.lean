import Mathlib.Tactic

/-! Names that are numbered by a counter for each requested name. The first request of a name that is not reserved gets
    the name itself, and each other one a number behind it; the produced names are distinct unless a name is requested
    that was numbered for another request. -/

namespace Taco
namespace NumberedNames

variable {N : Type*} [DecidableEq N] (numbered : N → ℕ → N) (reserved : List N)

/-- How many numbers the requests of a name have used. -/
def copies (requests : List N) (r : N) : ℕ := requests.count r - if r ∈ reserved then 0 else 1

/-- The counter of a name after the requests, if it has one. -/
def counter (requests : List N) (r : N) : Option ℕ :=
  if r ∈ reserved ∨ r ∈ requests then some (copies reserved requests r) else none

/-- The name that is produced for a request after others. -/
def next (requests : List N) (r : N) : N := ((counter reserved requests r).map (numbered r)).getD r

/-- The names that are produced for requests after others. -/
def producedFrom : List N → List N → List N
  | _, [] => []
  | before, r :: requests => next numbered reserved before r :: producedFrom (before ++ [r]) requests

def produced (requests : List N) : List N := producedFrom numbered reserved [] requests

/-- No numbered name is requested as it is. -/
def NoClash (requests : List N) : Prop :=
  ∀ r ∈ requests, ∀ k < copies reserved requests r, numbered r k ∈ requests → numbered r k ∈ reserved

variable {numbered reserved} {requests : List N} {r x : N}

@[simp] theorem produced_nil : produced numbered reserved [] = [] := rfl

theorem producedFrom_append (before requests : List N) (r : N) :
    producedFrom numbered reserved before (requests ++ [r]) =
      producedFrom numbered reserved before requests ++ [next numbered reserved (before ++ requests) r] := by
  induction requests generalizing before with
  | nil => rw [List.nil_append, producedFrom, producedFrom, producedFrom, List.append_nil, List.nil_append]
  | cons q requests ih =>
    rw [List.cons_append, producedFrom, producedFrom, ih, List.append_assoc, List.singleton_append, List.cons_append]

@[simp] theorem produced_append (requests : List N) (r : N) :
    produced numbered reserved (requests ++ [r]) =
      produced numbered reserved requests ++ [next numbered reserved requests r] :=
  producedFrom_append [] requests r

@[simp] theorem length_produced (requests : List N) : (produced numbered reserved requests).length = requests.length := by
  induction requests using List.reverseRecOn with
  | nil => rfl
  | append_singleton requests r ih => rw [produced_append, List.length_append, List.length_append, ih,
      List.length_singleton, List.length_singleton]

theorem next_of_counted (h : r ∈ reserved ∨ r ∈ requests) :
    next numbered reserved requests r = numbered r (copies reserved requests r) := by
  rw [next, counter, if_pos h, Option.map_some, Option.getD_some]

theorem next_of_new (h : ¬ (r ∈ reserved ∨ r ∈ requests)) : next numbered reserved requests r = r := by
  rw [next, counter, if_neg h, Option.map_none, Option.getD_none]

theorem mem_of_lt_copies {k : ℕ} (h : k < copies reserved requests r) : r ∈ requests := by
  by_contra hnot
  rw [copies, List.count_eq_zero.mpr hnot, Nat.zero_sub] at h
  exact Nat.not_lt_zero k h

/-! ### One more request -/

theorem copies_append_of_ne {s : N} (h : s ≠ r) : copies reserved (requests ++ [r]) s = copies reserved requests s := by
  rw [copies, copies, List.count_append, List.count_singleton, if_neg (by simpa using Ne.symm h), Nat.add_zero]

theorem copies_append_of_counted (h : r ∈ reserved ∨ r ∈ requests) :
    copies reserved (requests ++ [r]) r = copies reserved requests r + 1 := by
  rw [copies, copies, List.count_append, List.count_singleton_self]
  split_ifs with hreserved
  · rfl
  · have := List.count_pos_iff.mpr (h.resolve_left hreserved)
    omega

theorem copies_of_new (h : ¬ (r ∈ reserved ∨ r ∈ requests)) :
    copies reserved requests r = 0 ∧ copies reserved (requests ++ [r]) r = 0 := by
  rw [not_or] at h
  rw [copies, copies, List.count_append, List.count_singleton_self, List.count_eq_zero.mpr h.2, if_neg h.1]
  exact ⟨rfl, rfl⟩

/-- The counter that a request leaves. -/
theorem counter_append (requests : List N) (r s : N) :
    counter reserved (requests ++ [r]) s =
      if s = r then some (((counter reserved requests r).map (· + 1)).getD 0) else counter reserved requests s := by
  by_cases hs : s = r
  · subst hs
    rw [if_pos rfl, counter, if_pos (Or.inr (List.mem_append_right _ List.mem_cons_self))]
    by_cases h : s ∈ reserved ∨ s ∈ requests
    · rw [copies_append_of_counted h, counter, if_pos h]
      rfl
    · rw [(copies_of_new h).2, counter, if_neg h]
      rfl
  · rw [if_neg hs, counter, counter, copies_append_of_ne hs]
    simp [hs]

/-! ### The produced names -/

/-- A produced name is a requested one, or is numbered. -/
theorem mem_produced_iff : x ∈ produced numbered reserved requests ↔
    (x ∈ requests ∧ x ∉ reserved) ∨ ∃ r ∈ requests, ∃ k < copies reserved requests r, x = numbered r k := by
  induction requests using List.reverseRecOn with
  | nil => simp
  | append_singleton requests r ih =>
    rw [produced_append, List.mem_append, List.mem_singleton, ih]
    by_cases h : r ∈ reserved ∨ r ∈ requests
    · rw [next_of_counted h]
      constructor
      · rintro ((⟨hx, hres⟩ | ⟨s, hs, k, hk, rfl⟩) | rfl)
        · exact Or.inl ⟨List.mem_append_left _ hx, hres⟩
        · refine Or.inr ⟨s, List.mem_append_left _ hs, k, ?_, rfl⟩
          by_cases hsr : s = r
          · rw [hsr, copies_append_of_counted h]
            exact Nat.lt_succ_of_lt (hsr ▸ hk)
          · rwa [copies_append_of_ne hsr]
        · refine Or.inr ⟨r, List.mem_append_right _ List.mem_cons_self, _, ?_, rfl⟩
          rw [copies_append_of_counted h]
          exact Nat.lt_succ_self _
      · rintro (⟨hx, hres⟩ | ⟨s, hs, k, hk, rfl⟩)
        · rcases List.mem_append.mp hx with hx | hx
          · exact Or.inl (Or.inl ⟨hx, hres⟩)
          · obtain rfl := List.mem_singleton.mp hx
            exact Or.inl (Or.inl ⟨h.resolve_left hres, hres⟩)
        · by_cases hsr : s = r
          · subst hsr
            rw [copies_append_of_counted h] at hk
            rcases Nat.lt_succ_iff_lt_or_eq.mp hk with hk | rfl
            · exact Or.inl (Or.inr ⟨s, mem_of_lt_copies hk, k, hk, rfl⟩)
            · exact Or.inr rfl
          · rw [copies_append_of_ne hsr] at hk
            exact Or.inl (Or.inr ⟨s, mem_of_lt_copies hk, k, hk, rfl⟩)
    · have hnew := not_or.mp h
      rw [next_of_new h]
      constructor
      · rintro ((⟨hx, hres⟩ | ⟨s, hs, k, hk, rfl⟩) | rfl)
        · exact Or.inl ⟨List.mem_append_left _ hx, hres⟩
        · have hsr : s ≠ r := fun heq => hnew.2 (heq ▸ hs)
          exact Or.inr ⟨s, List.mem_append_left _ hs, k, (copies_append_of_ne hsr).symm ▸ hk, rfl⟩
        · exact Or.inl ⟨List.mem_append_right _ List.mem_cons_self, hnew.1⟩
      · rintro (⟨hx, hres⟩ | ⟨s, hs, k, hk, rfl⟩)
        · rcases List.mem_append.mp hx with hx | hx
          · exact Or.inl (Or.inl ⟨hx, hres⟩)
          · exact Or.inr (List.mem_singleton.mp hx)
        · by_cases hsr : s = r
          · rw [hsr, (copies_of_new h).2] at hk
            exact absurd hk (Nat.not_lt_zero k)
          · rw [copies_append_of_ne hsr] at hk
            exact Or.inl (Or.inr ⟨s, mem_of_lt_copies hk, k, hk, rfl⟩)

/-- A request keeps the clashes there are, and makes one exactly if its name has been produced. -/
theorem noClash_append_iff (hnumbered : Function.Injective2 numbered) :
    NoClash numbered reserved (requests ++ [r]) ↔
      NoClash numbered reserved requests ∧ next numbered reserved requests r ∉ produced numbered reserved requests := by
  have hmono : ∀ s, copies reserved requests s ≤ copies reserved (requests ++ [r]) s := fun s =>
    Nat.sub_le_sub_right (by rw [List.count_append]; exact Nat.le_add_right _ _) _
  rw [mem_produced_iff]
  by_cases h : r ∈ reserved ∨ r ∈ requests
  · rw [next_of_counted h]
    constructor
    · intro hno
      refine ⟨fun s hs k hk hmem => ?_, ?_⟩
      · exact hno s (List.mem_append_left _ hs) k (hk.trans_le (hmono s)) (List.mem_append_left _ hmem)
      · rintro (⟨hmem, hres⟩ | ⟨s, hs, k, hk, heq⟩)
        · refine hres (hno r (List.mem_append_right _ List.mem_cons_self) _ ?_ (List.mem_append_left _ hmem))
          rw [copies_append_of_counted h]
          exact Nat.lt_succ_self _
        · obtain ⟨rfl, rfl⟩ := hnumbered heq
          exact lt_irrefl _ hk
    · rintro ⟨hno, hnext⟩ s hs k hk hmem
      by_contra hres
      have hrequested : numbered s k ∈ requests := by
        rcases List.mem_append.mp hmem with hmem | hmem
        · exact hmem
        · rw [List.mem_singleton.mp hmem] at hres ⊢
          exact h.resolve_left hres
      by_cases hsr : s = r
      · subst hsr
        rw [copies_append_of_counted h] at hk
        rcases Nat.lt_succ_iff_lt_or_eq.mp hk with hk | rfl
        · exact hres (hno s (mem_of_lt_copies hk) k hk hrequested)
        · exact hnext (Or.inl ⟨hrequested, hres⟩)
      · rw [copies_append_of_ne hsr] at hk
        exact hres (hno s (mem_of_lt_copies hk) k hk hrequested)
  · have hnew := not_or.mp h
    rw [next_of_new h]
    constructor
    · intro hno
      refine ⟨fun s hs k hk hmem => ?_, ?_⟩
      · exact hno s (List.mem_append_left _ hs) k (hk.trans_le (hmono s)) (List.mem_append_left _ hmem)
      · rintro (⟨hmem, -⟩ | ⟨s, hs, k, hk, rfl⟩)
        · exact hnew.2 hmem
        · exact hnew.1 (hno s (List.mem_append_left _ hs) k (hk.trans_le (hmono s))
            (List.mem_append_right _ List.mem_cons_self))
    · rintro ⟨hno, hnext⟩ s hs k hk hmem
      have hsr : s ≠ r := by
        rintro rfl
        rw [(copies_of_new h).2] at hk
        exact Nat.not_lt_zero k hk
      rw [copies_append_of_ne hsr] at hk
      rcases List.mem_append.mp hmem with hmem | hmem
      · exact hno s (mem_of_lt_copies hk) k hk hmem
      · exact absurd (Or.inr ⟨s, mem_of_lt_copies hk, k, hk, (List.mem_singleton.mp hmem).symm⟩) hnext

/-- The produced names are distinct exactly if no numbered name is requested. -/
theorem nodup_produced_iff (hnumbered : Function.Injective2 numbered) :
    (produced numbered reserved requests).Nodup ↔ NoClash numbered reserved requests := by
  induction requests using List.reverseRecOn with
  | nil => exact iff_of_true List.nodup_nil fun r hr => by cases hr
  | append_singleton requests r ih =>
    rw [produced_append, noClash_append_iff hnumbered, ← ih, List.nodup_append]
    simp only [List.nodup_singleton, true_and, List.mem_singleton, forall_eq]
    exact and_congr_right fun _ => ⟨fun hne hmem => hne _ hmem rfl, fun hnot x hx heq => hnot (heq ▸ hx)⟩

end NumberedNames
end Taco
