import Taco.Library.Strips
import Taco.Scheduling.GuardedNest

/-! A divided variable whose outer and inner child may be split or divided once more. -/

namespace Taco
namespace Scheduling
open Expr Strips

/-- What is done with a child of the divided variable. -/
inductive Cut where
  | whole
  | split (splitFactor : ℕ) (pos : 0 < splitFactor)
  | divide (divFactor : ℕ) (pos : 0 < divFactor)

namespace Cut

variable (v w₁ w₂ : IndexVar)

/-- The relation that cuts `v` into `w₁` and `w₂`. -/
def relations : Cut → List IndexVarRel
  | whole => []
  | split splitFactor _ => [.split ⟨v, w₁, w₂, splitFactor⟩]
  | divide divFactor _ => [.divide ⟨v, w₁, w₂, divFactor⟩]

def foralls : Cut → List IndexVar
  | whole => [v]
  | split .. | divide .. => [w₁, w₂]

end Cut

/-- `divide` of the variable 0 into 1 and 2, and the further cuts of these into 3 and 4 and into 5 and 6. -/
def divideGraph (divFactor : ℕ) (outerCut innerCut : Cut) : ProvenanceGraph :=
  ⟨.divide ⟨0, 1, 2, divFactor⟩ :: (outerCut.relations 1 3 4 ++ innerCut.relations 2 5 6)⟩

/-- The loops that `lowerForall` emits below a dense dimension of `n`. -/
def divideNest (n divFactor : ℕ) (outerCut innerCut : Cut) : Option LoopNest :=
  (divideGraph divFactor outerCut innerCut).lowerForall (denseBounds 0 n) true []
    (outerCut.foralls 1 3 4 ++ innerCut.foralls 2 5 6)

/-! ### The loops of one variable -/

namespace Cut

variable (v w₁ w₂ : IndexVar) (bounds : Bounds) (recovery : List RecoveryStep) (contents : LoopNest)

/-- The loops over a variable that may be cut, and the code that follows its recovery. -/
def loops : Cut → LoopNest
  | whole => .for v bounds recovery contents
  | split splitFactor _ =>
    let rel : SplitRelNode := ⟨v, w₁, w₂, splitFactor⟩
    .for w₁ (rel.deriveIterBounds w₁ bounds) []
      (.for w₂ (rel.deriveIterBounds w₂ bounds) (.varDecl v (rel.recoverVariable var) :: recovery) contents)
  | divide divFactor _ =>
    let rel : DivideRelNode := ⟨v, w₁, w₂, divFactor⟩
    let inner := rel.deriveIterBounds w₂ bounds
    .for w₁ (rel.deriveIterBounds w₁ bounds) []
      (.for w₂ inner
        (.varDecl v (rel.recoverVariable var bounds) ::
          .continueIf (.gte (var v) (mul (add (var w₁) (literal 1)) (sub inner.2 inner.1))) :: recovery)
        contents)

/-- The size of the strips or chunks of `[0, m)`. -/
def size (m : ℕ) : Cut → ℕ
  | whole => 1
  | split splitFactor _ => splitFactor
  | divide divFactor _ => ceilDiv m divFactor

/-- How many strips or chunks there are. -/
def count (m : ℕ) : Cut → ℕ
  | whole => m
  | split splitFactor _ => ceilDiv m splitFactor
  | divide divFactor _ => divFactor

/-- The values of the variable in the loops. -/
def values (m : ℕ) (cut : Cut) : List ℕ :=
  (pairs 0 (cut.count m) 0 (cut.size m)).map fun p => p.1 * cut.size m + p.2

/-- The variables in the loops, once the variable is recovered. -/
def envs (m : ℕ) (env : Env) (cut : Cut) : List Env :=
  (pairs 0 (cut.count m) 0 (cut.size m)).map fun p =>
    match cut with
    | whole => Function.update env v (p.1 * cut.size m + p.2)
    | split .. | divide .. =>
      Function.update (Function.update (Function.update env w₁ p.1) w₂ p.2) v (p.1 * cut.size m + p.2)

theorem le_count_mul_size (m : ℕ) : ∀ cut : Cut, m ≤ cut.count m * cut.size m
  | whole => Nat.le_of_eq (Nat.mul_one m).symm
  | split s pos => not_lt.mp fun h => Nat.lt_irrefl _ ((lt_ceilDiv pos).mpr h)
  | divide c pos => by
    rw [count, size, Nat.mul_comm]
    exact not_lt.mp fun h => Nat.lt_irrefl _ ((lt_ceilDiv pos).mpr h)

/-- The loops visit each value once, up to the end of the last strip. -/
theorem values_visitsOnce (m : ℕ) (cut : Cut) : VisitsOnce (cut.values m) 0 (cut.count m * cut.size m) := by
  rw [values, ← List.filterMap_eq_map]
  refine (visitsOnce_pairs (f := fun i j => some (i * cut.size m + j))).1.mpr ⟨?_, fun x => ?_⟩
  · intro o i o' i' x h h' hx hx'
    have hi := (mem_pairs.mp h).2.2
    have hi' := (mem_pairs.mp h').2.2
    have hsame := Option.some.inj (hx.trans hx'.symm)
    constructor
    · rw [← div_strip (o := o) hi, hsame, div_strip hi']
    · rw [← mod_strip (o := o) hi, hsame, mod_strip hi']
  · constructor
    · rintro ⟨o, i, h, hx⟩
      obtain rfl := Option.some.inj hx
      exact ⟨Nat.zero_le _, strip_lt (mem_pairs.mp h).1.2 (mem_pairs.mp h).2.2⟩
    · rintro ⟨-, hx⟩
      have hs : 0 < cut.size m := Nat.pos_of_ne_zero fun h => by rw [h] at hx; omega
      refine ⟨x / cut.size m, x % cut.size m, mem_pairs.mpr ⟨⟨Nat.zero_le _, ?_⟩, Nat.zero_le _, Nat.mod_lt _ hs⟩,
        congrArg some (Nat.div_add_mod' x _)⟩
      exact Nat.div_lt_of_lt_mul (by rwa [Nat.mul_comm])

theorem map_envs (m : ℕ) (env : Env) (cut : Cut) : (cut.envs v w₁ w₂ m env).map (fun e => e v) = cut.values m := by
  rw [envs, values, List.map_map]
  refine List.map_congr_left fun p _ => ?_
  cases cut <;> exact Function.update_self ..

theorem envs_frame {m : ℕ} {env e : Env} {cut : Cut} (h : e ∈ cut.envs v w₁ w₂ m env) {x : IndexVar} (hv : x ≠ v)
    (h₁ : x ≠ w₁) (h₂ : x ≠ w₂) : e x = env x := by
  obtain ⟨p, -, rfl⟩ := List.mem_map.mp h
  cases cut <;> simp [hv, h₁, h₂]

end Cut

/-- What runs of the code below a recovered variable. -/
def runBelow (recovery : List RecoveryStep) (contents : LoopNest) (env : Env) : List Env :=
  match runRecovery recovery env with
  | none => []
  | some env' => contents.run env'

section

variable (v : IndexVar) (recovery : List RecoveryStep) (contents : LoopNest) (env : Env)

theorem run_for (bounds : Bounds) :
    (LoopNest.for v bounds recovery contents).run env =
      (Bounds.values bounds env).flatMap fun x => runBelow recovery contents (Function.update env v x) := rfl

theorem runBelow_nil : runBelow [] contents env = contents.run env := rfl

theorem runBelow_varDecl (value : Expr) :
    runBelow (.varDecl v value :: recovery) contents env =
      runBelow recovery contents (Function.update env v (value.eval env)) := rfl

theorem runBelow_continueIf (guard : Condition) :
    runBelow (.continueIf guard :: recovery) contents env =
      if guard.eval env then [] else runBelow recovery contents env := by
  rw [runBelow, runRecovery]
  split_ifs <;> rfl

end

/-- The loops of a variable run the code below them for each of its values. -/
theorem Cut.run_loops {v w₁ w₂ : IndexVar} (hv : v ≠ w₁) (h₁₂ : w₁ ≠ w₂) {bounds : Bounds} {m : ℕ}
    (hlo : ∀ env, bounds.1.eval env = 0) (hhi : ∀ env, bounds.2.eval env = m) (recovery : List RecoveryStep)
    (contents : LoopNest) (env : Env) (cut : Cut) :
    (cut.loops v w₁ w₂ bounds recovery contents).run env =
      (cut.envs v w₁ w₂ m env).flatMap (runBelow recovery contents) := by
  rw [envs, List.flatMap_map, pairs, List.flatMap_assoc]
  cases cut with
  | whole => simp [loops, run_for, Bounds.values, hlo, hhi, count, size]
  | split s pos =>
    have houter : ∀ env, Bounds.values ((⟨v, w₁, w₂, s⟩ : SplitRelNode).deriveIterBounds w₁ bounds) env =
        List.range' 0 (ceilDiv m s) := fun env => by
      simp [Bounds.values, SplitRelNode.deriveIterBounds, hlo, hhi, ceilDiv]
    have hinner : ∀ env, Bounds.values ((⟨v, w₁, w₂, s⟩ : SplitRelNode).deriveIterBounds w₂ bounds) env =
        List.range' 0 s := fun env => by
      simp [Bounds.values, SplitRelNode.deriveIterBounds, h₁₂.symm]
    rw [loops, run_for, houter]
    refine List.flatMap_congr fun a _ => ?_
    rw [runBelow_nil, run_for, hinner, List.flatMap_map]
    refine List.flatMap_congr fun b _ => ?_
    rw [runBelow_varDecl]
    simp [SplitRelNode.recoverVariable, Function.update_of_ne h₁₂, size]
  | divide c pos =>
    let rel : DivideRelNode := ⟨v, w₁, w₂, c⟩
    have houter : ∀ env, Bounds.values (rel.deriveIterBounds w₁ bounds) env = List.range' 0 c := fun env => by
      simp [Bounds.values, rel, DivideRelNode.deriveIterBounds]
    have hinner : ∀ env, Bounds.values (rel.deriveIterBounds w₂ bounds) env = List.range' 0 (ceilDiv m c) := fun env => by
      simp [Bounds.values, rel, DivideRelNode.deriveIterBounds, h₁₂.symm, hlo, hhi, ceilDiv]
    rw [loops, run_for, houter]
    refine List.flatMap_congr fun a _ => ?_
    rw [runBelow_nil, run_for, hinner, List.flatMap_map]
    refine List.flatMap_congr fun b hb => ?_
    have hb : b < ceilDiv m c := by simpa using hb
    have hvalue : (rel.recoverVariable var bounds).eval (Function.update (Function.update env w₁ a) w₂ b) =
        a * ceilDiv m c + b := by
      simp [rel, DivideRelNode.recoverVariable, Function.update_of_ne h₁₂, hlo, hhi, ceilDiv]
    -- no offset reaches behind its chunk
    rw [runBelow_varDecl, hvalue, runBelow_continueIf, if_neg]
    · rfl
    · have hlt : a * ceilDiv m c + b < (a + 1) * ceilDiv m c := strip_lt (Nat.lt_succ_self a) hb
      simpa [Condition.eval, DivideRelNode.deriveIterBounds, h₁₂.symm, Function.update_of_ne hv.symm,
        Function.update_of_ne h₁₂, hlo, hhi, ceilDiv] using hlt

/-! ### The nest -/

/-- The recovery of the divided variable, with the guards on the dimension and on the chunk. -/
def chunkSteps (n divFactor : ℕ) : List RecoveryStep :=
  let rel : DivideRelNode := ⟨0, 1, 2, divFactor⟩
  let inner := rel.deriveIterBounds 2 (literal 0, property n)
  [.varDecl 0 (rel.recoverVariable var (literal 0, property n)), .continueIf (.gte (var 0) (property n)),
    .continueIf (.gte (var 0) (mul (add (var 1) (literal 1)) (sub inner.2 inner.1)))]

theorem divideNest_eq (n divFactor : ℕ) (outerCut innerCut : Cut) :
    divideNest n divFactor outerCut innerCut =
      some (outerCut.loops 1 3 4 (literal 0, literal divFactor) []
        (innerCut.loops 2 5 6 ((⟨0, 1, 2, divFactor⟩ : DivideRelNode).deriveIterBounds 2 (literal 0, property n))
          (chunkSteps n divFactor) .body)) := by
  cases outerCut <;> cases innerCut <;> rfl

/-- The value recovered in an iteration, unless a guard skips it. -/
def chunkValue (n divFactor o i : ℕ) : Option ℕ :=
  if o * ceilDiv n divFactor + i < n ∧ i < ceilDiv n divFactor then some (o * ceilDiv n divFactor + i) else none

theorem map_runBelow_chunkSteps (n divFactor : ℕ) (env : Env) :
    (runBelow (chunkSteps n divFactor) .body env).map (fun env' => env' 0) =
      (chunkValue n divFactor (env 1) (env 2)).toList := by
  let inner := (⟨0, 1, 2, divFactor⟩ : DivideRelNode).deriveIterBounds 2 (literal 0, property n)
  have hvalue : ((⟨0, 1, 2, divFactor⟩ : DivideRelNode).recoverVariable var (literal 0, property n)).eval env =
      env 1 * ceilDiv n divFactor + env 2 := by
    simp [DivideRelNode.recoverVariable, ceilDiv]
  have hchunk : ∀ x, (Condition.gte (var 0) (mul (add (var 1) (literal 1)) (sub inner.2 inner.1))).eval
      (Function.update env 0 x) = true ↔ (env 1 + 1) * ceilDiv n divFactor ≤ x := fun x => by
    simp [Condition.eval, inner, DivideRelNode.deriveIterBounds, ceilDiv]
  have hdim : ∀ x, (Condition.gte (var 0) (property n)).eval (Function.update env 0 x) = true ↔ n ≤ x := fun x => by
    simp [Condition.eval]
  have hsucc : (env 1 + 1) * ceilDiv n divFactor = env 1 * ceilDiv n divFactor + ceilDiv n divFactor :=
    Nat.succ_mul _ _
  rw [chunkSteps, runBelow_varDecl, hvalue, runBelow_continueIf, runBelow_continueIf, runBelow_nil]
  simp only [hdim, hchunk, hsucc, inner]
  unfold chunkValue
  by_cases hx : env 1 * ceilDiv n divFactor + env 2 < n
  · by_cases hi : env 2 < ceilDiv n divFactor
    · rw [if_neg (by omega), if_neg (by omega), if_pos ⟨hx, hi⟩]
      simp [LoopNest.run]
    · rw [if_neg (by omega), if_pos (by omega), if_neg fun h => hi h.2]
      rfl
  · rw [if_pos (by omega), if_neg fun h => hx h.1]
    rfl

/-- The values recovered in the nest, from those of the outer and of the inner child. -/
theorem trace_divideNest (n divFactor : ℕ) (outerCut innerCut : Cut) (env : Env) :
    (divideNest n divFactor outerCut innerCut).map (fun nest => nest.trace 0 env) =
      some ((outerCut.values divFactor ×ˢ innerCut.values (ceilDiv n divFactor)).filterMap
        fun p => chunkValue n divFactor p.1 p.2) := by
  rw [divideNest_eq, Option.map_some, LoopNest.trace,
    Cut.run_loops (m := divFactor) (by decide) (by decide) (fun _ => rfl) (fun _ => rfl)]
  refine congrArg some ?_
  show _ = List.filterMap _ (List.product _ _)
  rw [List.map_flatMap, ← outerCut.map_envs 1 3 4 divFactor env, List.product, List.filterMap_flatMap, List.flatMap_map]
  refine List.flatMap_congr fun e _ => ?_
  rw [runBelow_nil, Cut.run_loops (m := ceilDiv n divFactor) (by decide) (by decide) (fun _ => by simp [DivideRelNode.deriveIterBounds])
    (fun _ => by simp [DivideRelNode.deriveIterBounds, ceilDiv])]
  rw [List.map_flatMap, ← innerCut.map_envs 2 5 6 (ceilDiv n divFactor) e, List.filterMap_map, List.filterMap_map,
    List.filterMap_eq_flatMap_toList]
  refine List.flatMap_congr fun e' he' => ?_
  rw [map_runBelow_chunkSteps, Cut.envs_frame 2 5 6 he' (by decide) (by decide) (by decide)]
  rfl

end Scheduling
end Taco
