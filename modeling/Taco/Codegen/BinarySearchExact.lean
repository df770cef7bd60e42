import Taco.Codegen.BinarySearch

/-! When the binary searches find the right position. -/

namespace Taco
namespace Codegen

open Bisection (mid Part)

variable {array : ℕ → ℤ} {target : ℤ} {last : ℕ → ℕ → ℕ} {arrayStart arrayEnd a b q : ℕ}

/-! ### Finding -/

theorem finds_some {s : Search} {readable right : ℕ → Prop} :
    Finds (some s) readable right ↔ (∀ i ∈ s.reads, readable i) ∧ right s.result := by
  constructor
  · rintro ⟨s', hs, h⟩
    cases hs
    exact h
  · exact fun h => ⟨s, rfl, h⟩

theorem finds_none {readable right : ℕ → Prop} : ¬ Finds none readable right := by
  rintro ⟨s, hs, -⟩
  cases hs

theorem finds_read {found : Option Search} {i : ℕ} {readable right : ℕ → Prop} :
    Finds (found.map (Search.read i)) readable right ↔ readable i ∧ Finds found readable right := by
  cases found with
  | none => exact ⟨fun h => absurd h finds_none, fun h => absurd h.2 finds_none⟩
  | some s =>
    rw [Option.map_some, finds_some, finds_some, Search.read, List.forall_mem_cons]
    exact and_assoc

/-! ### The loop -/

theorem narrow_of_narrow (h : ¬ 1 < b - a) : narrow array target last a b = some ⟨last a b, []⟩ := by
  rw [narrow, dif_neg h]

/-- A step of the loop. -/
theorem narrow_step (h : 1 < b - a) (hfits : b + a ≤ intMax) : narrow array target last a b =
    (if array (mid a b) < target then narrow array target last (mid a b) b
      else if array (mid a b) > target then narrow array target last a (mid a b)
      else some ⟨mid a b, []⟩).map (Search.read (mid a b)) := by
  rw [narrow, dif_pos h, if_neg (Nat.not_lt.mpr hfits)]

theorem narrow_overflow (h : 1 < b - a) (hfits : ¬ b + a ≤ intMax) : narrow array target last a b = none := by
  rw [narrow, dif_pos h, if_pos (Nat.lt_of_not_le hfits)]

/-- The loop of a sorted range finds the right position exactly if it splits the range well, where `last` is right for
    neighbours. -/
theorem narrow_finds_iff {readable : ℕ → Prop} (hreadable : ∀ i, arrayStart < i → i < arrayEnd → readable i)
    (hsorted : SortedUpTo array arrayStart arrayEnd)
    (hlast : ∀ a, arrayStart ≤ a → a < arrayEnd → (a = arrayStart ∨ array a < target) →
      (a + 1 = arrayEnd ∨ target < array (a + 1)) → last a (a + 1) = q)
    (hstart : arrayStart ≤ a) (hend : b ≤ arrayEnd) (hab : a < b) (ha : a = arrayStart ∨ array a < target)
    (hb : b = arrayEnd ∨ target < array b) :
    Finds (narrow array target last a b) readable (· = q) ↔
      ∀ c d, Part a b c d → (c = arrayStart ∨ array c < target) → (d = arrayEnd ∨ target < array d) →
        1 < d - c → d + c ≤ intMax ∧ (array (mid c d) = target → mid c d = q) := by
  induction hn : b - a using Nat.strong_induction_on generalizing a b with
  | _ n ih =>
    subst hn
    by_cases hwide : 1 < b - a
    · have hlt := Bisection.lt_mid hwide
      have hgt := Bisection.mid_lt hwide
      rw [Bisection.forall_part_iff hwide]
      by_cases hfits : b + a ≤ intMax
      · rw [narrow_step hwide hfits, finds_read]
        have hmid := hreadable (mid a b) (hstart.trans_lt hlt) (hgt.trans_le hend)
        -- a half with no element that is behind the target, or with none before it, is not reached
        have hleft : array (mid a b) ≤ target → ∀ c d, Part a (mid a b) c d → ¬ (d = arrayEnd ∨ target < array d) ∨ d ≤ c := by
          intro hle c d hpart
          obtain ⟨hc, hd⟩ := hpart.within
          refine (le_or_gt d c).symm.imp (fun hcd => ?_) id
          rintro (rfl | hbehind)
          · omega
          · have := hsorted d (mid a b) (by omega) hd (by omega)
            omega
        have hright : target ≤ array (mid a b) → ∀ c d, Part (mid a b) b c d →
            ¬ (c = arrayStart ∨ array c < target) ∨ d ≤ c := by
          intro hle c d hpart
          obtain ⟨hc, hd⟩ := hpart.within
          refine (le_or_gt d c).symm.imp (fun hcd => ?_) id
          rintro (rfl | hbefore)
          · omega
          · have := hsorted (mid a b) c (by omega) hc (by omega)
            omega
        rcases lt_trichotomy (array (mid a b)) target with hbefore | hhit | hbehind
        · rw [if_pos hbefore, ih _ (by omega) (hstart.trans hlt.le) hend hgt (Or.inr hbefore) hb rfl]
          refine ⟨fun h => ⟨fun _ _ _ => ⟨hfits, fun heq => absurd heq hbefore.ne⟩, fun c d hpart _ hd hcd => ?_, h.2⟩,
            fun h => ⟨hmid, h.2.2⟩⟩
          exact ((hleft hbefore.le c d hpart).resolve_right (by omega) hd).elim
        · rw [if_neg hhit.not_lt, if_neg hhit.symm.not_lt, finds_some]
          refine ⟨fun h => ⟨fun _ _ _ => ⟨hfits, fun _ => h.2.2⟩, fun c d hpart _ hd hcd => ?_, fun c d hpart hc _ hcd => ?_⟩,
            fun h => ⟨hmid, nofun, (h.1 ha hb hwide).2 hhit⟩⟩
          · exact ((hleft hhit.le c d hpart).resolve_right (by omega) hd).elim
          · exact ((hright hhit.ge c d hpart).resolve_right (by omega) hc).elim
        · rw [if_neg hbehind.not_gt, if_pos hbehind, ih _ (by omega) hstart (hgt.le.trans hend) hlt ha (Or.inr hbehind) rfl]
          refine ⟨fun h => ⟨fun _ _ _ => ⟨hfits, fun heq => absurd heq hbehind.ne'⟩, h.2, fun c d hpart hc _ hcd => ?_⟩,
            fun h => ⟨hmid, h.2.1⟩⟩
          exact ((hright hbehind.le c d hpart).resolve_right (by omega) hc).elim
      · rw [narrow_overflow hwide hfits]
        refine ⟨fun h => absurd h finds_none, fun h => absurd (h.1 ha hb hwide).1 hfits⟩
    · have hb' : b = a + 1 := by omega
      subst hb'
      rw [narrow_of_narrow hwide, finds_some, Bisection.forall_part_iff_of_narrow hwide]
      refine ⟨fun _ _ _ h => absurd h hwide, fun _ => ⟨nofun, hlast a hstart hend ha hb⟩⟩

theorem Finds.congr {found : Option Search} {readable right right' : ℕ → Prop} (h : ∀ p, right p ↔ right' p) :
    Finds found readable right ↔ Finds found readable right' :=
  exists_congr fun s => and_congr_right fun _ => and_congr_right fun _ => h s.result

theorem splitsWell_iff {right : ℕ → Prop} (h : ∀ m, arrayStart < m → m < arrayEnd → array m = target → (m = q ↔ right m)) :
    (∀ c d, Part arrayStart arrayEnd c d → (c = arrayStart ∨ array c < target) → (d = arrayEnd ∨ target < array d) →
        1 < d - c → d + c ≤ intMax ∧ (array (mid c d) = target → mid c d = q)) ↔
      SplitsWell array arrayStart arrayEnd target right := by
  refine forall₂_congr fun c d => forall_congr' fun hpart => forall₂_congr fun _ _ => forall_congr' fun hwide => ?_
  obtain ⟨hc, hd⟩ := hpart.within
  refine and_congr_right fun _ => forall_congr' fun hhit => ?_
  exact h _ (hc.trans_lt (Bisection.lt_mid hwide)) ((Bisection.mid_lt hwide).trans_le hd) hhit

/-! ### The searches -/

theorem findsAfter_iff (hle : arrayStart ≤ arrayEnd) (hsorted : SortedUpTo array arrayStart arrayEnd) :
    FindsAfter array arrayStart arrayEnd target ↔
      arrayStart < arrayEnd ∧ (array arrayStart ≥ target ∨
        SplitsWell array arrayStart arrayEnd target fun p => array (p - 1) < target) := by
  rw [FindsAfter, binarySearchAfter, finds_read, and_iff_right (le_refl arrayStart)]
  refine and_congr_right fun hlt => ?_
  by_cases hfirst : array arrayStart ≥ target
  · rw [if_pos hfirst, finds_some]
    exact ⟨fun _ => Or.inl hfirst, fun _ => ⟨nofun, ⟨le_refl _, hle, Or.inr hfirst⟩, fun p hp => hp.1⟩⟩
  · rw [if_neg hfirst, or_iff_right hfirst]
    rw [not_le] at hfirst
    set S := {p | arrayStart ≤ p ∧ p ≤ arrayEnd ∧ (p = arrayEnd ∨ array p ≥ target)} with hS
    have hleast : IsLeast S (sInf S) := ⟨Nat.sInf_mem ⟨arrayEnd, hle, le_refl _, Or.inl rfl⟩, fun _ => Nat.sInf_le⟩
    rw [Finds.congr fun p => ⟨fun h => h.unique hleast, fun h => h ▸ hleast⟩,
      narrow_finds_iff (fun i h h' => ⟨h.le, h'⟩) hsorted ?_ (le_refl _) (le_refl _) hlt (Or.inl rfl) (Or.inl rfl)]
    · refine splitsWell_iff fun m hm hm' hhit => ⟨fun heq => ?_, fun hbefore => ?_⟩
      · by_contra hnot
        have hmem : m - 1 ∈ S := ⟨by omega, by omega, Or.inr (not_lt.mp hnot)⟩
        have := heq ▸ hleast.2 hmem
        omega
      · refine le_antisymm ?_ (hleast.2 ⟨hm.le, hm'.le, Or.inr hhit.ge⟩)
        obtain ⟨hstart, hend, hat⟩ := hleast.1
        by_contra hbelow
        have := hsorted (sInf S) (m - 1) hstart (by omega) (by omega)
        rcases hat with hat | hat <;> omega
    · intro a hstart hend hbefore hbehind
      have ha : array a < target := hbefore.elim (fun h => h ▸ hfirst) id
      refine le_antisymm ?_ (hleast.2 ⟨by omega, hend, hbehind.imp id le_of_lt⟩)
      obtain ⟨hstart', hend', hat⟩ := hleast.1
      by_contra hbelow
      have := hsorted (sInf S) a hstart' (by omega) hend
      rcases hat with hat | hat <;> omega

theorem findsBefore_iff (hle : arrayStart ≤ arrayEnd) (hsorted : SortedUpTo array arrayStart (arrayEnd + 1))
    (hfirst : array arrayStart ≤ target) :
    FindsBefore array arrayStart arrayEnd target ↔
      array arrayEnd ≤ target ∨ SplitsWell array arrayStart arrayEnd target fun p => target < array (p + 1) := by
  rw [FindsBefore, binarySearchBefore, finds_read, and_iff_right ⟨hle, le_refl arrayEnd⟩]
  by_cases hlast : array arrayEnd ≤ target
  · rw [if_pos hlast, finds_some]
    exact ⟨fun _ => Or.inl hlast, fun _ => ⟨nofun, ⟨hle, le_refl _, hlast⟩, fun p hp => hp.2.1⟩⟩
  · rw [if_neg hlast, or_iff_right hlast]
    rw [not_le] at hlast
    have hlt : arrayStart < arrayEnd := lt_of_le_of_ne hle fun h => absurd (h ▸ hlast) hfirst.not_gt
    set S := {p | arrayStart ≤ p ∧ p ≤ arrayEnd ∧ array p ≤ target} with hS
    have hgreatest : IsGreatest S (sSup S) :=
      ⟨Nat.sSup_mem ⟨arrayStart, le_refl _, hle, hfirst⟩ ⟨arrayEnd, fun p hp => hp.2.1⟩,
        fun p hp => le_csSup ⟨arrayEnd, fun p hp => hp.2.1⟩ hp⟩
    have hsorted' : SortedUpTo array arrayStart arrayEnd := fun i j hi hij hj => hsorted i j hi hij (by omega)
    rw [Finds.congr fun p => ⟨fun h => h.unique hgreatest, fun h => h ▸ hgreatest⟩,
      narrow_finds_iff (fun i h h' => ⟨h.le, h'.le⟩) hsorted' ?_ (le_refl _) (le_refl _) hlt (Or.inl rfl) (Or.inl rfl)]
    · refine splitsWell_iff fun m hm hm' hhit => ⟨fun heq => ?_, fun hbehind => ?_⟩
      · by_contra hnot
        have hmem : m + 1 ∈ S := ⟨by omega, by omega, not_lt.mp hnot⟩
        have := heq ▸ hgreatest.2 hmem
        omega
      · refine le_antisymm (hgreatest.2 ⟨hm.le, hm'.le, hhit.le⟩) ?_
        obtain ⟨hstart, hend, hat⟩ := hgreatest.1
        by_contra habove
        have := hsorted (m + 1) (sSup S) (by omega) (by omega) (by omega)
        omega
    · intro a hstart hend hbefore hbehind
      have ha : array a ≤ target := hbefore.elim (fun h => h ▸ hfirst) le_of_lt
      refine le_antisymm (hgreatest.2 ⟨hstart, hend.le, ha⟩) ?_
      obtain ⟨hstart', hend', hat⟩ := hgreatest.1
      by_contra habove
      have := hsorted (a + 1) (sSup S) (by omega) (by omega) (by omega)
      rcases hbehind with rfl | hbehind
      · omega
      · omega

/-- In sorted arrays, the searches find the right positions exactly if the range of the first one is not empty and they
    return an end of the range or split the range well. -/
theorem binarySearches_iff (hle : arrayStart ≤ arrayEnd) :
    (SortedUpTo array arrayStart arrayEnd → (FindsAfter array arrayStart arrayEnd target ↔
      arrayStart < arrayEnd ∧ (array arrayStart ≥ target ∨
        SplitsWell array arrayStart arrayEnd target fun p => array (p - 1) < target))) ∧
    (SortedUpTo array arrayStart (arrayEnd + 1) → array arrayStart ≤ target →
      (FindsBefore array arrayStart arrayEnd target ↔
        array arrayEnd ≤ target ∨ SplitsWell array arrayStart arrayEnd target fun p => target < array (p + 1))) :=
  ⟨findsAfter_iff hle, findsBefore_iff hle⟩

/-- The searches of the coordinates of one row. -/
theorem binarySearches_row :
    FindsAfter (fun p => p) 0 3 2 ∧ FindsBefore (fun p => p) 0 3 2 := by
  have hsorted : ∀ bound, SortedUpTo (fun p => (p : ℤ)) 0 bound := fun bound i j _ hij _ => Int.ofNat_le.mpr hij
  have hle : 0 ≤ 3 := by decide
  have hiff := @binarySearches_iff (fun p => p) 2 0 3 hle
  refine ⟨(hiff.1 (hsorted 3)).mpr ⟨by decide, Or.inr ?_⟩, (hiff.2 (hsorted 4) (by decide)).mpr (Or.inr ?_)⟩
  all_goals
    intro a b hpart _ _ _
    obtain ⟨-, hb⟩ := hpart.within
    refine ⟨?_, fun hhit => ?_⟩
    · rw [intMax]
      omega
    · dsimp only at hhit ⊢
      omega

/-- The first one of equal coordinates is not found. -/
theorem binarySearchAfter_duplicates : ¬ ∀ (array : ℕ → ℤ) (arrayStart arrayEnd : ℕ) (target : ℤ),
    arrayStart ≤ arrayEnd → SortedUpTo array arrayStart arrayEnd → FindsAfter array arrayStart arrayEnd target := by
  intro hall
  have hsorted : SortedUpTo (fun p => if p = 0 then 0 else 1) 0 4 := fun i j _ hij _ => by
    dsimp only
    split_ifs <;> omega
  obtain ⟨s, hs, -, hleast⟩ := hall _ 0 4 1 (Nat.zero_le 4) hsorted
  have hfound : binarySearchAfter (fun p => if p = 0 then 0 else 1) 0 4 1 = some ⟨2, [0, 2]⟩ := by
    rw [binarySearchAfter, narrow_step (by decide) (by decide)]
    rfl
  cases hfound.symm.trans hs
  have hle : 2 ≤ 1 := hleast.2 ⟨Nat.zero_le 1, by decide, Or.inr (by decide)⟩
  exact absurd hle (by decide)

end Codegen
end Taco
