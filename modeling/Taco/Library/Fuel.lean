import Mathlib.Tactic
import Taco.Library.Loops

/-! Recursive procedures on a state, run with a bound on the depth of their recursion, and what they promise. -/

namespace Taco

universe u

variable {ε α : Type*} {σ τ : Type u}

@[simp] theorem ok_bind (s : σ) (f : σ → Except ε τ) : (Except.ok s >>= f) = f s := rfl

@[simp] theorem error_bind (e : ε) (f : σ → Except ε τ) : ((Except.error e : Except ε σ) >>= f) = .error e := rfl

/-! ### Outcomes -/

/-- A result of which `Q` holds, or a fault of which `F` holds. -/
def Outcome (Q : σ → Prop) (F : ε → Prop) : Except ε σ → Prop
  | .ok s => Q s
  | .error e => F e

variable {Q Q' : σ → Prop} {F F' : ε → Prop}

@[simp] theorem outcome_ok {s : σ} : Outcome Q F (.ok s) ↔ Q s := Iff.rfl

@[simp] theorem outcome_error {e : ε} : Outcome Q F (.error e) ↔ F e := Iff.rfl

@[simp] theorem outcome_pure {s : σ} : Outcome Q F (pure s) ↔ Q s := Iff.rfl

theorem Outcome.mono {x : Except ε σ} (h : Outcome Q F x) (hQ : ∀ s, Q s → Q' s) (hF : ∀ e, F e → F' e) : Outcome Q' F' x := by
  cases x with
  | ok s => exact hQ s h
  | error e => exact hF e h

/-- What two parts of a procedure promise one after the other. -/
theorem Outcome.bind {R : τ → Prop} {x : Except ε σ} {f : σ → Except ε τ} (h : Outcome Q F x)
    (hf : ∀ s, Q s → Outcome R F (f s)) : Outcome R F (x >>= f) := by
  cases x with
  | ok s => exact hf s h
  | error e => exact h

/-- A procedure that ends has passed through a state between its two parts. -/
theorem ok_of_bind {x : Except ε σ} {f : σ → Except ε τ} {t : τ} (h : x >>= f = .ok t) : ∃ s, x = .ok s ∧ f s = .ok t := by
  cases x with
  | ok s => exact ⟨s, rfl, h⟩
  | error e => cases h

theorem Outcome.of_eq_ok {x : Except ε σ} {s : σ} (h : Outcome Q F x) (hx : x = .ok s) : Q s := by
  rw [hx] at h
  exact h

/-- What holds after the part of a list already visited holds after all of it. -/
theorem Outcome.foldlM {f : σ → α → Except ε σ} {l : List α} (P : List α → σ → Prop)
    (hstep : ∀ before a after s, l = before ++ a :: after → P before s → Outcome (P (before ++ [a])) F (f s a)) {s : σ}
    (hs : P [] s) : Outcome (P l) F (l.foldlM f s) := by
  have h := foldlM_induct (f := f) (l := l) (Q := F) P (fun before a after s hl hP => by
    have ha := hstep before a after s hl hP
    cases hfa : f s a with
    | ok t => rwa [hfa] at ha
    | error e => rwa [hfa] at ha) hs
  cases hfold : l.foldlM f s with
  | ok t => rwa [hfold] at h
  | error e => rwa [hfold] at h

/-- An invariant that each visit keeps. -/
theorem Outcome.foldlM_of_forall {f : σ → α → Except ε σ} {l : List α} {I : σ → Prop}
    (hstep : ∀ a ∈ l, ∀ s, I s → Outcome I F (f s a)) {s : σ} (hs : I s) : Outcome I F (l.foldlM f s) :=
  Outcome.foldlM (fun _ => I) (fun before a after s hl hI => hstep a (by simp [hl]) s hI) hs

/-! ### Running out of the bound -/

section Below

variable (stop : ε)

/-- `y` is what `x` is, unless `x` has run out of its bound. -/
def Below (x y : Except ε σ) : Prop := x ≠ .error stop → y = x

variable {stop}

theorem Below.refl (x : Except ε σ) : Below stop x x := fun _ => rfl

theorem Below.bind {x y : Except ε σ} {f g : σ → Except ε τ} (h : Below stop x y)
    (hfg : ∀ s, Below stop (f s) (g s)) : Below stop (x >>= f) (y >>= g) := by
  intro hne
  have hx : x ≠ .error stop := by
    rintro rfl
    exact hne rfl
  rw [h hx]
  cases x with
  | ok s => exact hfg s hne
  | error e => rfl

theorem Below.foldlM {f g : σ → α → Except ε σ} (h : ∀ s a, Below stop (f s a) (g s a)) (l : List α) (s : σ) :
    Below stop (l.foldlM f s) (l.foldlM g s) := by
  induction l generalizing s with
  | nil => exact Below.refl _
  | cons a l ih =>
    rw [List.foldlM_cons, List.foldlM_cons]
    exact (h s a).bind ih

/-- A recursive procedure, given by its body, to a depth of `fuel` calls. -/
def recurse (body : (α → σ → Except ε σ) → α → σ → Except ε σ) (stop : ε) : ℕ → α → σ → Except ε σ
  | 0, _, _ => .error stop
  | fuel + 1, a, s => body (recurse body stop fuel) a s

variable {body : (α → σ → Except ε σ) → α → σ → Except ε σ}

/-- More depth does not change a result. -/
theorem recurse_below (hbody : ∀ f g, (∀ a s, Below stop (f a s) (g a s)) → ∀ a s, Below stop (body f a s) (body g a s))
    {fuel fuel' : ℕ} (hle : fuel ≤ fuel') (a : α) (s : σ) :
    Below stop (recurse body stop fuel a s) (recurse body stop fuel' a s) := by
  induction fuel generalizing fuel' a s with
  | zero => exact fun h => absurd rfl h
  | succ fuel ih =>
    obtain ⟨fuel', rfl⟩ := Nat.exists_eq_add_of_le' (Nat.le_trans (Nat.le_add_left 1 fuel) hle)
    exact hbody _ _ (fun a s => ih (by omega) a s) a s

/-- A promise that the body keeps if the calls keep it, and that running out keeps, is kept to every depth. -/
theorem recurse_induct {P : α → σ → Except ε σ → Prop} (hstop : ∀ a s, P a s (.error stop))
    (hbody : ∀ f, (∀ a s, P a s (f a s)) → ∀ a s, P a s (body f a s)) (fuel : ℕ) (a : α) (s : σ) :
    P a s (recurse body stop fuel a s) := by
  induction fuel generalizing a s with
  | zero => exact hstop a s
  | succ fuel ih => exact hbody _ (fun a s => ih a s) a s

/-- One depth that is enough for each of finitely many calls. -/
theorem exists_bound {P : α → ℕ → Prop} {l : List α} (h : ∀ a ∈ l, ∃ bound, ∀ fuel, bound ≤ fuel → P a fuel) :
    ∃ bound, ∀ a ∈ l, ∀ fuel, bound ≤ fuel → P a fuel := by
  induction l with
  | nil => exact ⟨0, by simp⟩
  | cons a l ih =>
    obtain ⟨bound, hbound⟩ := ih fun b hb => h b (List.mem_cons_of_mem a hb)
    obtain ⟨bound', hbound'⟩ := h a (List.mem_cons_self ..)
    refine ⟨max bound bound', fun b hb fuel hfuel => ?_⟩
    rcases List.mem_cons.mp hb with rfl | hb
    · exact hbound' fuel (le_of_max_le_right hfuel)
    · exact hbound b hb fuel (le_of_max_le_left hfuel)

end Below

end Taco
