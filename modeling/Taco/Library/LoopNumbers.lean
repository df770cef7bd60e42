import Mathlib.Tactic

/-! Nested loops over ranges, and the number of an iteration in the order in which they run. -/

namespace Taco
namespace LoopNumbers

variable {ι : Type*} [DecidableEq ι] (dim : ι → ℕ)

/-- The iterations of nested loops, the outermost loop first. -/
def nest : List ι → (ι → ℕ) → List (ι → ℕ)
  | [], env => [env]
  | m :: ms, env => (List.range (dim m)).flatMap fun x => nest ms (Function.update env m x)

omit [DecidableEq ι] in
/-- How many iterations the loops run before an iteration. -/
def number : List ι → (ι → ℕ) → ℕ
  | [], _ => 0
  | m :: ms, env => env m * (ms.map dim).prod + number ms env

/-- The iteration is within the ranges of the loops. -/
def Within (ms : List ι) (env : ι → ℕ) : Prop := ∀ m ∈ ms, env m < dim m

variable {dim} {ms ms' : List ι} {env env' : ι → ℕ} {m : ι}

omit [DecidableEq ι] in
theorem Within.tail (h : Within dim (m :: ms) env) : Within dim ms env := fun m' hm => h m' (List.mem_cons_of_mem _ hm)

omit [DecidableEq ι] in
theorem number_congr (h : ∀ m ∈ ms, env m = env' m) : number dim ms env = number dim ms env' := by
  induction ms with
  | nil => rfl
  | cons m ms ih =>
    rw [number, number, h m List.mem_cons_self, ih fun m' hm => h m' (List.mem_cons_of_mem _ hm)]

omit [DecidableEq ι] in
theorem number_lt (h : Within dim ms env) : number dim ms env < (ms.map dim).prod := by
  induction ms with
  | nil => exact Nat.zero_lt_one
  | cons m ms ih =>
    have hrest := ih h.tail
    rw [number, List.map_cons, List.prod_cons]
    calc env m * (ms.map dim).prod + number dim ms env
        < env m * (ms.map dim).prod + (ms.map dim).prod := Nat.add_lt_add_left hrest _
      _ = (env m + 1) * (ms.map dim).prod := (Nat.succ_mul _ _).symm
      _ ≤ dim m * (ms.map dim).prod := Nat.mul_le_mul_right _ (h m List.mem_cons_self)

omit [DecidableEq ι] in
/-- An iteration is known by its number. -/
theorem eq_of_number_eq (h : Within dim ms env) (h' : Within dim ms env') (heq : number dim ms env = number dim ms env') :
    ∀ m ∈ ms, env m = env' m := by
  induction ms with
  | nil => exact fun m hm => by cases hm
  | cons m ms ih =>
    have hlt := number_lt h.tail
    have hlt' := number_lt h'.tail
    have hpos : 0 < (ms.map dim).prod := Nat.zero_lt_of_lt hlt
    rw [number, number] at heq
    have hfirst : env m = env' m := by
      have hdiv := congrArg (· / (ms.map dim).prod) heq
      simp only [Nat.mul_comm _ (ms.map dim).prod, Nat.mul_add_div hpos, Nat.div_eq_of_lt hlt, Nat.div_eq_of_lt hlt',
        Nat.add_zero] at hdiv
      exact hdiv
    have hrest := ih h.tail h'.tail (by rw [hfirst] at heq; exact Nat.add_left_cancel heq)
    exact fun m' hm => (List.mem_cons.mp hm).elim (fun heq => heq ▸ hfirst) (hrest m')

omit [DecidableEq ι] in
theorem number_append (ms ms' : List ι) (env : ι → ℕ) :
    number dim (ms ++ ms') env = number dim ms env * (ms'.map dim).prod + number dim ms' env := by
  induction ms with
  | nil => rw [List.nil_append, number, Nat.zero_mul, Nat.zero_add]
  | cons m ms ih =>
    rw [List.cons_append, number, number, ih, List.map_append, List.prod_append, Nat.add_mul, Nat.mul_assoc, Nat.add_assoc]

omit [DecidableEq ι] in
theorem number_map {κ : Type*} (f : κ → ι) (ks : List κ) (env : ι → ℕ) :
    number dim (ks.map f) env = number (dim ∘ f) ks (env ∘ f) := by
  induction ks with
  | nil => rfl
  | cons k ks ih =>
    rw [List.map_cons, number, number, ih, List.map_map]
    rfl

/-! ### The iterations in order -/

theorem nest_spec (hnodup : ms.Nodup) (h : env' ∈ nest dim ms env) : Within dim ms env' ∧ ∀ m ∉ ms, env' m = env m := by
  induction ms generalizing env with
  | nil =>
    obtain rfl := List.mem_singleton.mp h
    exact ⟨fun m hm => (List.not_mem_nil hm).elim, fun m _ => rfl⟩
  | cons m ms ih =>
    obtain ⟨hm, hnodup⟩ := List.nodup_cons.mp hnodup
    obtain ⟨x, hx, hmem⟩ := List.mem_flatMap.mp h
    obtain ⟨hwithin, hsame⟩ := ih hnodup hmem
    have hfirst : env' m = x := by rw [hsame m hm, Function.update_self]
    refine ⟨fun m' hm' => ?_, fun m' hm' => ?_⟩
    · rcases List.mem_cons.mp hm' with rfl | hm'
      · rw [hfirst]
        exact List.mem_range.mp hx
      · exact hwithin m' hm'
    · rw [List.mem_cons, not_or] at hm'
      rw [hsame m' hm'.2, Function.update_of_ne hm'.1]

theorem flatMap_range_add (a b : ℕ) :
    ((List.range a).flatMap fun x => (List.range b).map fun y => x * b + y) = List.range (a * b) := by
  induction a with
  | zero => rw [Nat.zero_mul]; rfl
  | succ a ih =>
    rw [List.range_succ, List.flatMap_append, ih, List.flatMap_singleton, Nat.succ_mul, List.range_add]

/-- The loops run their iterations in the order of the numbers. -/
theorem map_number_nest (hnodup : ms.Nodup) (env : ι → ℕ) :
    (nest dim ms env).map (number dim ms) = List.range (ms.map dim).prod := by
  induction ms generalizing env with
  | nil => rfl
  | cons m ms ih =>
    obtain ⟨hm, hnodup⟩ := List.nodup_cons.mp hnodup
    rw [nest, List.map_flatMap, List.map_cons, List.prod_cons, ← flatMap_range_add]
    refine List.flatMap_congr fun x _ => ?_
    rw [← ih hnodup (Function.update env m x), List.map_map]
    refine List.map_congr_left fun env' henv => ?_
    rw [number, (nest_spec hnodup henv).2 m hm, Function.update_self]
    rfl

/-! ### Loops with one iteration -/

omit [DecidableEq ι] in
/-- Loops with one iteration do not count. -/
theorem number_filter (h : Within dim ms env) : number dim (ms.filter (1 < dim ·)) env = number dim ms env := by
  have hprod : ∀ {ms : List ι}, Within dim ms env → ((ms.filter (1 < dim ·)).map dim).prod = (ms.map dim).prod := by
    intro ms h
    induction ms with
    | nil => rfl
    | cons m ms ih =>
      have hm := h m List.mem_cons_self
      by_cases hone : 1 < dim m
      · rw [List.filter_cons_of_pos (by simpa using hone), List.map_cons, List.map_cons, List.prod_cons, List.prod_cons, ih h.tail]
      · have hunit : dim m = 1 := by omega
        rw [List.filter_cons_of_neg (by simpa using hone), List.map_cons, List.prod_cons, ih h.tail, hunit, Nat.one_mul]
  induction ms with
  | nil => rfl
  | cons m ms ih =>
    have hm := h m List.mem_cons_self
    by_cases hone : 1 < dim m
    · rw [List.filter_cons_of_pos (by simpa using hone), number, number, ih h.tail, hprod h.tail]
    · have hzero : env m = 0 := by omega
      rw [List.filter_cons_of_neg (by simpa using hone), number, ih h.tail, hzero, Nat.zero_mul, Nat.zero_add]

/-- The number of the iteration that is one step of one loop behind the first. -/
theorem number_single {before after : List ι} (hnodup : (before ++ m :: after).Nodup) :
    number dim (before ++ m :: after) (Function.update (fun _ => 0) m 1) = (after.map dim).prod := by
  have hzero : ∀ ms : List ι, m ∉ ms → number dim ms (Function.update (fun _ => 0) m 1) = 0 := by
    intro ms hm
    induction ms with
    | nil => rfl
    | cons m' ms ih =>
      rw [List.mem_cons, not_or] at hm
      rw [number, ih hm.2, Function.update_of_ne (Ne.symm hm.1), Nat.zero_mul]
  have hparts := List.nodup_append.mp hnodup
  have hbefore : m ∉ before := fun hm => hparts.2.2 m hm m List.mem_cons_self rfl
  have hafter : m ∉ after := (List.nodup_cons.mp hparts.2.1).1
  rw [number_append, hzero before hbefore, number, hzero after hafter, Function.update_self]
  omega

theorem within_single (h : ∀ m ∈ ms, 1 < dim m) : Within dim ms (Function.update (fun _ => 0) m 1) := by
  intro m' hm'
  have hone := h m' hm'
  rw [Function.update_apply]
  split_ifs <;> omega

omit [DecidableEq ι] in
theorem eq_nil_of_prod_eq_one (h : ∀ m ∈ ms, 1 < dim m) (hprod : (ms.map dim).prod = 1) : ms = [] := by
  cases ms with
  | nil => rfl
  | cons m ms =>
    rw [List.map_cons, List.prod_cons] at hprod
    exact absurd (Nat.eq_one_of_mul_eq_one_right hprod) (h m List.mem_cons_self).ne'

/-- Loops that all have several iterations are in the same order if they number all iterations alike. -/
theorem eq_of_number_eq_number (hms : ms.Nodup) (hperm : ms.Perm ms') (hone : ∀ m ∈ ms, 1 < dim m)
    (heq : ∀ env, Within dim ms env → number dim ms env = number dim ms' env) : ms = ms' := by
  induction ms generalizing ms' with
  | nil => exact hperm.nil_eq
  | cons m ms ih =>
    have hms' : ms'.Nodup := hperm.nodup_iff.mp hms
    obtain ⟨before, after, rfl⟩ := List.append_of_mem (hperm.subset List.mem_cons_self)
    -- the outermost loop is the one whose step is the longest
    have hstep := heq _ (within_single hone (m := m))
    have hhead : number dim (m :: ms) (Function.update (fun _ => 0) m 1) = (ms.map dim).prod := by
      rw [← List.nil_append (m :: ms)]
      exact number_single hms
    rw [number_single hms', hhead] at hstep
    have hprod : ((m :: ms).map dim).prod = ((before ++ m :: after).map dim).prod := (hperm.map dim).prod_eq
    have hpos : 0 < (after.map dim).prod := List.prod_pos fun d hd => by
      obtain ⟨m', hm', rfl⟩ := List.mem_map.mp hd
      exact Nat.zero_lt_of_lt (hone m' (hperm.symm.subset (List.mem_append_right _ (List.mem_cons_of_mem _ hm'))))
    have hfirst : (before.map dim).prod = 1 := by
      rw [List.map_cons, List.prod_cons, hstep, List.map_append, List.prod_append, List.map_cons, List.prod_cons] at hprod
      have hpositive : 0 < dim m * (after.map dim).prod :=
        Nat.mul_pos (Nat.zero_lt_of_lt (hone m List.mem_cons_self)) hpos
      exact (Nat.eq_of_mul_eq_mul_right hpositive (by rw [Nat.one_mul]; exact hprod)).symm
    obtain rfl : before = [] := eq_nil_of_prod_eq_one
      (fun m' hm' => hone m' (hperm.symm.subset (List.mem_append_left _ hm'))) hfirst
    rw [List.nil_append] at hperm hms' ⊢
    refine congrArg (m :: ·) (ih hms.of_cons (List.perm_cons m |>.mp hperm) (fun m' hm' => hone m' (List.mem_cons_of_mem _ hm'))
      fun env henv => ?_)
    have hm := (List.nodup_cons.mp hms).1
    have hm' := (List.nodup_cons.mp hms').1
    have hsame : ∀ l : List ι, m ∉ l → number dim l (Function.update env m 0) = number dim l env := fun l hl =>
      number_congr fun m' hmem => Function.update_of_ne (by rintro rfl; exact hl hmem) _ _
    have hwithin : Within dim (m :: ms) (Function.update env m 0) := by
      intro m' hm'
      by_cases hmm : m' = m
      · rw [hmm, Function.update_self]
        exact Nat.zero_lt_of_lt (hone m List.mem_cons_self)
      · rw [Function.update_of_ne hmm]
        exact henv m' ((List.mem_cons.mp hm').resolve_left hmm)
    have hnumber := heq _ hwithin
    rw [List.nil_append, number, number, Function.update_self, Nat.zero_mul, Nat.zero_add, Nat.zero_mul, Nat.zero_add,
      hsame ms hm, hsame after hm'] at hnumber
    exact hnumber

/-- Two nests over the same modes number all iterations alike exactly if their loops with several iterations are in the
    same order. -/
theorem number_eq_iff (hms : ms.Nodup) (hperm : ms.Perm ms') (hpos : ∀ m ∈ ms, 0 < dim m) :
    (∀ env, Within dim ms env → number dim ms env = number dim ms' env) ↔
      ms.filter (1 < dim ·) = ms'.filter (1 < dim ·) := by
  have hwithin : ∀ {env}, Within dim ms env → Within dim ms' env := fun h m hm => h m (hperm.symm.subset hm)
  constructor
  · intro heq
    refine eq_of_number_eq_number (hms.filter _) (hperm.filter _) (fun m hm => by simpa using (List.mem_filter.mp hm).2) ?_
    intro env henv
    -- the loops with one iteration stay at 0
    have hzero : Within dim ms fun m => if 1 < dim m then env m else 0 := by
      intro m hm
      dsimp only
      split_ifs with hone
      · exact henv m (List.mem_filter.mpr ⟨hm, by simpa using hone⟩)
      · exact hpos m hm
    have hsame : ∀ l : List ι, number dim (l.filter (1 < dim ·)) (fun m => if 1 < dim m then env m else 0) =
        number dim (l.filter (1 < dim ·)) env := fun l =>
      number_congr fun m hm => if_pos (by simpa using (List.mem_filter.mp hm).2)
    rw [← hsame ms, ← hsame ms', number_filter hzero, number_filter (hwithin hzero)]
    exact heq _ hzero
  · intro hfilter env henv
    rw [← number_filter henv, ← number_filter (hwithin henv), hfilter]

end LoopNumbers
end Taco
