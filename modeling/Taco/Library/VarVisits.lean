import Mathlib.Tactic

/-! The environments in which the body of a loop nest runs, where each variable takes the values below its dimension. -/

namespace Taco
namespace VarVisits

variable {Var : Type*} [DecidableEq Var] (dims : Var → ℕ)

/-- The environments of loops over the variables, the first of which is that of the outermost loop. -/
def visits : List Var → (Var → ℕ) → List (Var → ℕ)
  | [], env => [env]
  | v :: vars, env => (List.range (dims v)).flatMap fun x => visits vars (Function.update env v x)

variable {dims} {vars : List Var} {env e : Var → ℕ} {v : Var}

theorem mem_visits_cons : e ∈ visits dims (v :: vars) env ↔ ∃ x < dims v, e ∈ visits dims vars (Function.update env v x) := by
  rw [visits, List.mem_flatMap]
  exact exists_congr fun x => and_congr_left' List.mem_range

/-- The loops leave the other variables as they are. -/
theorem eq_of_mem_visits (h : e ∈ visits dims vars env) (hv : v ∉ vars) : e v = env v := by
  induction vars generalizing env with
  | nil => rw [List.mem_singleton.mp h]
  | cons u vars ih =>
    obtain ⟨x, -, hx⟩ := mem_visits_cons.mp h
    rw [ih hx fun hmem => hv (List.mem_cons_of_mem _ hmem)]
    refine Function.update_of_ne ?_ _ _
    rintro rfl
    exact hv List.mem_cons_self

theorem lt_of_mem_visits (h : e ∈ visits dims vars env) (hv : v ∈ vars) : e v < dims v := by
  induction vars generalizing env with
  | nil => cases hv
  | cons u vars ih =>
    obtain ⟨x, hlt, hx⟩ := mem_visits_cons.mp h
    by_cases hmem : v ∈ vars
    · exact ih hx hmem
    · obtain rfl : v = u := (List.mem_cons.mp hv).resolve_right hmem
      rw [eq_of_mem_visits hx hmem, Function.update_self]
      exact hlt

/-- Values below the dimensions are visited. -/
theorem exists_mem_visits (env : Var → ℕ) {values : Var → ℕ} (h : ∀ v ∈ vars, values v < dims v) :
    ∃ e ∈ visits dims vars env, ∀ v ∈ vars, e v = values v := by
  induction vars generalizing env with
  | nil => exact ⟨env, List.mem_singleton_self env, fun v hv => absurd hv List.not_mem_nil⟩
  | cons u vars ih =>
    obtain ⟨e, he, hvalues⟩ := ih (Function.update env u (values u)) fun v hv => h v (List.mem_cons_of_mem _ hv)
    refine ⟨e, mem_visits_cons.mpr ⟨values u, h u List.mem_cons_self, he⟩, fun v hv => ?_⟩
    by_cases hmem : v ∈ vars
    · exact hvalues v hmem
    · obtain rfl : v = u := (List.mem_cons.mp hv).resolve_right hmem
      rw [eq_of_mem_visits he hmem, Function.update_self]

/-- Loops over different variables visit no values twice. -/
theorem pairwise_visits (h : vars.Nodup) : (visits dims vars env).Pairwise fun e e' => ∃ v ∈ vars, e v ≠ e' v := by
  induction vars generalizing env with
  | nil => exact List.pairwise_singleton _ _
  | cons u vars ih =>
    obtain ⟨hu, hvars⟩ := List.nodup_cons.mp h
    rw [visits, List.pairwise_flatMap]
    refine ⟨fun x _ => (ih hvars).imp fun hne => ?_, (List.nodup_range (n := dims u)).imp fun {x y} hxy e he e' he' => ?_⟩
    · obtain ⟨v, hv, hne⟩ := hne
      exact ⟨v, List.mem_cons_of_mem _ hv, hne⟩
    · refine ⟨u, List.mem_cons_self, ?_⟩
      rw [eq_of_mem_visits he hu, eq_of_mem_visits he' hu, Function.update_self, Function.update_self]
      exact hxy

theorem flatMap_comm_perm {A B C : Type*} (l : List A) (l' : List B) (f : A → B → List C) :
    (l.flatMap fun a => l'.flatMap (f a)).Perm (l'.flatMap fun b => l.flatMap fun a => f a b) := by
  induction l with
  | nil => simp
  | cons a l ih =>
    simp only [List.flatMap_cons]
    exact (ih.append_left _).trans (List.flatMap_append_perm l' (f a) fun b => l.flatMap fun a => f a b)

/-- Loops in another order visit the same environments. -/
theorem visits_perm {vars vars' : List Var} (h : vars.Perm vars') (env : Var → ℕ) :
    (visits dims vars env).Perm (visits dims vars' env) := by
  induction h generalizing env with
  | nil => exact List.Perm.refl _
  | cons v _ ih => exact List.Perm.flatMap_left _ fun x _ => ih _
  | swap u v vars =>
    by_cases huv : u = v
    · rw [huv]
    · simp only [visits, Function.update_comm huv]
      exact flatMap_comm_perm _ _ _
  | trans _ _ ih ih' => exact (ih env).trans (ih' env)

/-- A fold over what is visited, as nested loops. -/
theorem foldl_visits_cons {S : Type*} (step : S → (Var → ℕ) → S) (s : S) :
    (visits dims (v :: vars) env).foldl step s =
      (List.range (dims v)).foldl (fun s x => (visits dims vars (Function.update env v x)).foldl step s) s := by
  rw [visits]
  generalize List.range (dims v) = l
  induction l generalizing s with
  | nil => rfl
  | cons x l ih => rw [List.flatMap_cons, List.foldl_append, ih, List.foldl_cons]

end VarVisits
end Taco
