import Mathlib.Tactic

/-! While loops whose bodies may jump, run with a bound on their passes. -/

namespace Taco

/-- The jumps out of a pass of a loop's body. -/
inductive Jump where
  | continueLoop | breakLoop
  deriving DecidableEq

/-- A loop; a pass of its body changes the state and emits, or it jumps. -/
structure While (σ ω : Type*) where
  cond : σ → Bool
  body : σ → Except (Jump × σ) (σ × List ω)

namespace While

variable {σ ω : Type*} (loop : While σ ω)

/-- What the loop emits and the state it leaves, if it ends within `fuel` tests of its condition. -/
@[grind =]
def run : ℕ → σ → Option (List ω × σ)
  | 0, _ => none
  | fuel + 1, s =>
    if loop.cond s then
      match loop.body s with
      | .error (.breakLoop, t) => some ([], t)
      | .error (.continueLoop, t) => run fuel t
      | .ok (t, out) => (run fuel t).map fun r => (out ++ r.1, r.2)
    else
      some ([], s)

variable {loop} in
/-- More tests of the condition do not change how a loop ends. -/
theorem run_mono {fuel fuel' : ℕ} {s : σ} {r : List ω × σ} (h : loop.run fuel s = some r) (hle : fuel ≤ fuel') :
    loop.run fuel' s = some r := by
  induction fuel generalizing fuel' s r with
  | zero => cases h
  | succ fuel ih =>
    obtain ⟨fuel', rfl⟩ := Nat.exists_eq_add_of_le' (Nat.le_trans (Nat.le_add_left 1 fuel) hle)
    rw [run] at h ⊢
    split_ifs at h ⊢ with hcond
    · split at h
      · exact h
      · exact ih h (by omega)
      · obtain ⟨r', hr', rfl⟩ := Option.map_eq_some_iff.mp h
        rw [ih hr' (by omega), Option.map_some]
    · exact h

/-- The loop ends. -/
def Yields (s : σ) (out : List ω) (t : σ) : Prop := ∃ bound, ∀ fuel, bound ≤ fuel → loop.run fuel s = some (out, t)

variable {loop} {s t u : σ} {out rest : List ω}

theorem yields_of_not (h : loop.cond s = false) : loop.Yields s [] s := by
  refine ⟨1, fun fuel hfuel => ?_⟩
  obtain ⟨fuel, rfl⟩ := Nat.exists_eq_add_of_le' hfuel
  simp [run, h]

theorem yields_of_break (h : loop.cond s = true) (hbody : loop.body s = .error (.breakLoop, t)) : loop.Yields s [] t := by
  refine ⟨1, fun fuel hfuel => ?_⟩
  obtain ⟨fuel, rfl⟩ := Nat.exists_eq_add_of_le' hfuel
  simp [run, h, hbody]

theorem Yields.of_continue (h : loop.cond s = true) (hbody : loop.body s = .error (.continueLoop, t))
    (ht : loop.Yields t out u) : loop.Yields s out u := by
  obtain ⟨bound, hbound⟩ := ht
  refine ⟨bound + 1, fun fuel hfuel => ?_⟩
  obtain ⟨fuel, rfl⟩ := Nat.exists_eq_add_of_le' (Nat.le_trans (Nat.le_add_left 1 bound) hfuel)
  simp [run, h, hbody, hbound fuel (by omega)]

theorem Yields.of_pass (h : loop.cond s = true) (hbody : loop.body s = .ok (t, out)) (ht : loop.Yields t rest u) :
    loop.Yields s (out ++ rest) u := by
  obtain ⟨bound, hbound⟩ := ht
  refine ⟨bound + 1, fun fuel hfuel => ?_⟩
  obtain ⟨fuel, rfl⟩ := Nat.exists_eq_add_of_le' (Nat.le_trans (Nat.le_add_left 1 bound) hfuel)
  simp [run, h, hbody, hbound fuel (by omega)]

/-- A loop that keeps `Good` and decreases a measure ends; what holds of the exits holds of the run if each pass extends
    it. -/
theorem exists_yields (loop : While σ ω) (measure : σ → ℕ) (Good : σ → Prop) (Post : σ → List ω → σ → Prop)
    (hexit : ∀ s, Good s → loop.cond s = false → Post s [] s)
    (hbreak : ∀ s t, Good s → loop.cond s = true → loop.body s = .error (.breakLoop, t) → Post s [] t)
    (hcontinue : ∀ s t, Good s → loop.cond s = true → loop.body s = .error (.continueLoop, t) →
      Good t ∧ measure t < measure s ∧ ∀ out u, Post t out u → Post s out u)
    (hpass : ∀ s t out, Good s → loop.cond s = true → loop.body s = .ok (t, out) →
      Good t ∧ measure t < measure s ∧ ∀ rest u, Post t rest u → Post s (out ++ rest) u)
    (s : σ) (hs : Good s) : ∃ out t, loop.Yields s out t ∧ Post s out t := by
  induction hn : measure s using Nat.strong_induction_on generalizing s with
  | h n ih =>
    cases hcond : loop.cond s with
    | false => exact ⟨[], s, yields_of_not hcond, hexit s hs hcond⟩
    | true =>
      match hbody : loop.body s with
      | .error (.breakLoop, t) => exact ⟨[], t, yields_of_break hcond hbody, hbreak s t hs hcond hbody⟩
      | .error (.continueLoop, t) =>
        obtain ⟨ht, hlt, hpost⟩ := hcontinue s t hs hcond hbody
        obtain ⟨out, u, hrun, hu⟩ := ih _ (hn ▸ hlt) t ht rfl
        exact ⟨out, u, hrun.of_continue hcond hbody, hpost out u hu⟩
      | .ok (t, out) =>
        obtain ⟨ht, hlt, hpost⟩ := hpass s t out hs hcond hbody
        obtain ⟨rest, u, hrun, hu⟩ := ih _ (hn ▸ hlt) t ht rfl
        exact ⟨out ++ rest, u, hrun.of_pass hcond hbody, hpost rest u hu⟩

end While

/-! ### Sequences of statements -/

/-- What holds after each statement of a sequence holds after all of them, unless one of them jumps. -/
theorem foldlM_induct {α σ ε : Type*} {f : σ → α → Except ε σ} {l : List α} (P : List α → σ → Prop) {Q : ε → Prop}
    (hstep : ∀ before a after s, l = before ++ a :: after → P before s →
      match f s a with
      | .ok t => P (before ++ [a]) t
      | .error e => Q e) {s : σ} (hs : P [] s) :
    match l.foldlM f s with
    | .ok t => P l t
    | .error e => Q e := by
  have hgen : ∀ (after before : List α) (s : σ), l = before ++ after → P before s →
      match after.foldlM f s with
      | .ok t => P l t
      | .error e => Q e := by
    intro after
    induction after with
    | nil =>
      rintro before s rfl hs
      rw [List.append_nil]
      exact hs
    | cons a after ih =>
      intro before s hl hs
      have ha := hstep before a after s hl hs
      rw [List.foldlM_cons]
      cases hfa : f s a with
      | ok t =>
        rw [hfa] at ha
        exact ih (before ++ [a]) t (by rw [hl, List.append_assoc, List.singleton_append]) ha
      | error e =>
        rw [hfa] at ha
        exact ha
  exact hgen l [] s rfl hs

/-! ### Sequences of loops -/

variable {σ ω : Type*}

/-- The loops one after the other, each within `fuel` tests of its condition. -/
@[grind =]
def runAll (fuel : ℕ) : List (While σ ω) → σ → Option (List ω × σ)
  | [], s => some ([], s)
  | loop :: loops, s => do
    let (out, t) ← loop.run fuel s
    let (rest, u) ← runAll fuel loops t
    some (out ++ rest, u)

theorem runAll_mono {loops : List (While σ ω)} {fuel fuel' : ℕ} {s : σ} {r : List ω × σ} (h : runAll fuel loops s = some r)
    (hle : fuel ≤ fuel') : runAll fuel' loops s = some r := by
  induction loops generalizing s r with
  | nil => exact h
  | cons loop loops ih =>
    rw [runAll, Option.bind_eq_bind, Option.bind_eq_some_iff] at h
    obtain ⟨⟨out, t⟩, hrun, h⟩ := h
    obtain ⟨⟨rest, u⟩, hrest, h⟩ := Option.bind_eq_some_iff.mp h
    simp only [runAll, While.run_mono hrun hle, ih hrest, Option.bind_eq_bind, Option.bind_some]
    exact h

/-- All loops end. -/
def YieldsAll (loops : List (While σ ω)) (s : σ) (out : List ω) (t : σ) : Prop :=
  ∃ bound, ∀ fuel, bound ≤ fuel → runAll fuel loops s = some (out, t)

theorem yieldsAll_nil (s : σ) : YieldsAll ([] : List (While σ ω)) s [] s := ⟨0, fun _ _ => rfl⟩

theorem YieldsAll.cons {loop : While σ ω} {loops : List (While σ ω)} {s t u : σ} {out rest : List ω}
    (h : loop.Yields s out t) (hrest : YieldsAll loops t rest u) : YieldsAll (loop :: loops) s (out ++ rest) u := by
  obtain ⟨bound, hbound⟩ := h
  obtain ⟨bound', hbound'⟩ := hrest
  refine ⟨max bound bound', fun fuel hfuel => ?_⟩
  simp [runAll, hbound fuel (le_of_max_le_left hfuel), hbound' fuel (le_of_max_le_right hfuel)]

theorem YieldsAll.unique {loops : List (While σ ω)} {s t t' : σ} {out out' : List ω} (h : YieldsAll loops s out t)
    (h' : YieldsAll loops s out' t') : out = out' ∧ t = t' := by
  obtain ⟨bound, hbound⟩ := h
  obtain ⟨bound', hbound'⟩ := h'
  have heq := (hbound _ (Nat.le_max_left bound bound')).symm.trans (hbound' _ (Nat.le_max_right bound bound'))
  exact Prod.mk.inj (Option.some.inj heq)

end Taco
