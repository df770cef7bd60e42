import Taco.Library.Strips
import Taco.Scheduling.GuardedNest

/-! Splits and divides of the positions of a segment. -/

namespace Taco
namespace Scheduling
open Expr Strips

/-! ### The kernels -/

/-- `pos` of the coordinate variable 0 into 1, whose positions are cut into 2 and 3. -/
def positionGraph (segment : Bounds) (coordArray : ℕ → ℕ) (cut : IndexVarRel) : ProvenanceGraph :=
  ⟨[.pos ⟨0, 1, segment, coordArray⟩, cut]⟩

/-- The segment `[lo, hi)`, whose start may be a literal. -/
def segmentBounds (literalStart : Bool) (lo hi : ℕ) : Bounds :=
  (if literalStart then literal lo else property lo, property hi)

/-- The positions for which the body is executed. -/
def ProvenanceGraph.positions (g : ProvenanceGraph) (n : ℕ) (foralls : List IndexVar) (env : Env) : Option (List ℕ) :=
  (g.lowerForall (denseBounds 0 n) true [] foralls).map fun nest => nest.trace 1 env

variable (n : ℕ) (coordArray : ℕ → ℕ) (literalStart : Bool) (lo hi : ℕ) (env : Env)

/-- The guard on the position, and the recovery of the coordinate. -/
def coordinateSteps (segment : Bounds) : List RecoveryStep :=
  [.continueIf (outOfBounds (var 1) segment), .varDecl 0 (sub (load coordArray (var 1)) (literal 0))]

/-- The position guard drops what is outside the segment, also where its lower half is left out. -/
theorem outOfBounds_segment (p : Expr) :
    (outOfBounds p (segmentBounds literalStart lo hi)).eval env = true ↔
      ¬(lo ≤ p.eval env ∧ p.eval env < hi) := by
  have hstart : ((segmentBounds literalStart lo hi).1).eval env = lo := by cases literalStart <;> rfl
  rw [eval_outOfBounds, hstart]
  rfl

theorem runRecovery_coordinate (steps : List RecoveryStep) :
    runRecovery (steps ++ coordinateSteps coordArray (segmentBounds literalStart lo hi)) env =
      (runRecovery steps env).bind fun env' =>
        if lo ≤ env' 1 ∧ env' 1 < hi then some (Function.update env' 0 (coordArray (env' 1))) else none := by
  induction steps generalizing env with
  | nil =>
    simp only [List.nil_append, coordinateSteps, runRecovery, Option.bind_some]
    by_cases h : lo ≤ env 1 ∧ env 1 < hi
    · rw [if_neg fun hc => (outOfBounds_segment literalStart lo hi env (var 1)).mp hc h, if_pos h]
      rfl
    · rw [if_pos ((outOfBounds_segment literalStart lo hi env (var 1)).mpr h), if_neg h]
  | cons step steps ih =>
    cases step with
    | varDecl v value => exact ih _
    | continueIf guard =>
      rw [List.cons_append, runRecovery, runRecovery]
      split_ifs
      · rfl
      · exact ih env

theorem perm_pair {foralls : List IndexVar} (h : foralls.Perm [2, 3]) : foralls = [2, 3] ∨ foralls = [3, 2] := by
  obtain ⟨v, w, rfl⟩ := List.length_eq_two.mp h.length_eq
  have hv : v = 2 ∨ v = 3 := by simpa using h.subset List.mem_cons_self
  have hw : w = 2 ∨ w = 3 := by simpa using h.subset (List.mem_cons_of_mem v List.mem_cons_self)
  have hne : v ≠ w := by simpa using h.nodup_iff.mpr (by decide : [2, 3].Nodup)
  rcases hv with rfl | rfl <;> rcases hw with rfl | rfl <;> simp_all

/-- The positions are those that the pairs of the two loops recover, in the order of the loops. -/
theorem positions_eq {g : ProvenanceGraph} {foralls : List IndexVar} {o i : Bounds} {r : List RecoveryStep}
    {a b c d : ℕ} {f : ℕ → ℕ → Option ℕ} (hforalls : foralls.Perm [2, 3])
    (houter : ∀ env, Bounds.values o env = List.range' a (b - a))
    (hinner : ∀ env, Bounds.values i env = List.range' c (d - c))
    (hrecovery : ∀ env, (runRecovery r env).map (fun env' => env' 1) = f (env 2) (env 3))
    (hlower : g.lowerForall (denseBounds 0 n) true [] [2, 3] = some (.for 2 o [] (.for 3 i r .body)))
    (hlower' : g.lowerForall (denseBounds 0 n) true [] [3, 2] = some (.for 3 i [] (.for 2 o r .body))) :
    g.positions n foralls env = some ((pairs a b c d).filterMap fun p => f p.1 p.2) ∨
      g.positions n foralls env = some ((pairs c d a b).filterMap fun p => f p.2 p.1) := by
  rcases perm_pair hforalls with rfl | rfl
  · left
    rw [ProvenanceGraph.positions, hlower, Option.map_some, LoopNest.trace,
      run_two (houter env) fun x => hinner _, List.map_filterMap]
    refine congrArg some (congrArg (List.filterMap · _) (funext fun p => ?_))
    rw [hrecovery]
    rfl
  · right
    rw [ProvenanceGraph.positions, hlower', Option.map_some, LoopNest.trace,
      run_two (hinner env) fun x => houter _, List.map_filterMap]
    refine congrArg some (congrArg (List.filterMap · _) (funext fun p => ?_))
    rw [hrecovery]
    rfl

/-! ### Splits -/

variable (splitFactor : ℕ)

def positionSplit : ProvenanceGraph :=
  positionGraph (segmentBounds literalStart lo hi) coordArray (.split ⟨1, 2, 3, splitFactor⟩)

/-- The position that a strip and an offset recover, if it is in the segment. -/
def stripPosition (o i : ℕ) : Option ℕ :=
  if lo ≤ o * splitFactor + i ∧ o * splitFactor + i < hi then some (o * splitFactor + i) else none

variable {lo hi splitFactor} in
theorem stripPosition_eq_some {o i x : ℕ} :
    stripPosition lo hi splitFactor o i = some x ↔ o * splitFactor + i = x ∧ lo ≤ x ∧ x < hi := by
  unfold stripPosition
  split_ifs with h
  · rw [Option.some.injEq]
    exact ⟨fun hx => ⟨hx, hx ▸ h⟩, fun hx => hx.1⟩
  · refine iff_of_false (fun h => by cases h) ?_
    rintro ⟨rfl, hx⟩
    exact h hx

theorem positionSplit_positions {foralls : List IndexVar} (h : foralls.Perm [2, 3]) :
    (positionSplit coordArray literalStart lo hi splitFactor).positions n foralls env =
        some ((pairs (lo / splitFactor) (ceilDiv hi splitFactor) 0 splitFactor).filterMap
          fun p => stripPosition lo hi splitFactor p.1 p.2) ∨
      (positionSplit coordArray literalStart lo hi splitFactor).positions n foralls env =
        some ((pairs 0 splitFactor (lo / splitFactor) (ceilDiv hi splitFactor)).filterMap
          fun p => stripPosition lo hi splitFactor p.2 p.1) := by
  have hstart : ∀ env, ((segmentBounds literalStart lo hi).1).eval env = lo := fun _ => by cases literalStart <;> rfl
  refine positions_eq n env
    (o := (⟨1, 2, 3, splitFactor⟩ : SplitRelNode).deriveIterBounds 2 (segmentBounds literalStart lo hi))
    (i := (literal 0, literal splitFactor))
    (r := [.varDecl 1 (add (mul (var 2) (literal splitFactor)) (var 3))] ++
      coordinateSteps coordArray (segmentBounds literalStart lo hi))
    h (fun env => ?_) (fun env => rfl) (fun env => ?_) rfl rfl
  · have hstop : ((segmentBounds literalStart lo hi).2).eval env = hi := rfl
    simp [Bounds.values, SplitRelNode.deriveIterBounds, hstart, hstop, ceilDiv]
  · rw [runRecovery_coordinate]
    simp only [runRecovery, Option.bind_some, eval_add, eval_mul, eval_var, eval_literal, Function.update_self]
    unfold stripPosition
    split_ifs <;> simp

/-- A position of the segment has one strip and one offset. -/
theorem strips_eachOnce {s : ℕ} (hs : 0 < s) :
    EachOnce (lo / s) (ceilDiv hi s) 0 s (stripPosition lo hi s) lo hi where
  unique := by
    intro o i o' i' x hoi hoi' hx hx'
    have hi : i < s := (mem_pairs.mp hoi).2.2
    have hi' : i' < s := (mem_pairs.mp hoi').2.2
    have hsame : o * s + i = o' * s + i' := (stripPosition_eq_some.mp hx).1.trans (stripPosition_eq_some.mp hx').1.symm
    constructor
    · rw [← div_strip (o := o) hi, hsame, div_strip hi']
    · rw [← mod_strip (o := o) hi, hsame, mod_strip hi']
  covers := by
    intro x
    constructor
    · rintro ⟨o, i, -, hx⟩
      exact (stripPosition_eq_some.mp hx).2
    · rintro ⟨hlo, hhi⟩
      have hpair : (x / s, x % s) ∈ pairs (lo / s) (ceilDiv hi s) 0 s :=
        mem_pairs.mpr ⟨⟨Nat.div_le_div_right hlo, div_lt_ceilDiv hs hhi⟩, Nat.zero_le _, Nat.mod_lt _ hs⟩
      exact ⟨_, _, hpair, stripPosition_eq_some.mpr ⟨Nat.div_add_mod' x s, hlo, hhi⟩⟩

variable (divFactor : ℕ)

def positionDivide : ProvenanceGraph :=
  positionGraph (segmentBounds literalStart lo hi) coordArray (.divide ⟨1, 2, 3, divFactor⟩)

/-- The position that a chunk and an offset recover, if it is in the chunk and in the segment. The chunks are as large
    as the segment, divided; the offsets have the divided bounds of the segment. -/
def chunkPosition (o i : ℕ) : Option ℕ :=
  if o * ceilDiv (hi - lo) divFactor + i < (o + 1) * (ceilDiv hi divFactor - lo / divFactor) ∧
      lo ≤ o * ceilDiv (hi - lo) divFactor + i ∧ o * ceilDiv (hi - lo) divFactor + i < hi then
    some (o * ceilDiv (hi - lo) divFactor + i)
  else
    none

variable {lo hi divFactor} in
theorem chunkPosition_eq_some {o i x : ℕ} :
    chunkPosition lo hi divFactor o i = some x ↔ o * ceilDiv (hi - lo) divFactor + i = x ∧
      x < (o + 1) * (ceilDiv hi divFactor - lo / divFactor) ∧ lo ≤ x ∧ x < hi := by
  unfold chunkPosition
  split_ifs with h
  · rw [Option.some.injEq]
    exact ⟨fun hx => ⟨hx, hx ▸ h⟩, fun hx => hx.1⟩
  · refine iff_of_false (fun h => by cases h) ?_
    rintro ⟨rfl, hx⟩
    exact h hx

theorem positionDivide_positions {foralls : List IndexVar} (h : foralls.Perm [2, 3]) :
    (positionDivide coordArray literalStart lo hi divFactor).positions n foralls env =
        some ((pairs 0 divFactor (lo / divFactor) (ceilDiv hi divFactor)).filterMap
          fun p => chunkPosition lo hi divFactor p.1 p.2) ∨
      (positionDivide coordArray literalStart lo hi divFactor).positions n foralls env =
        some ((pairs (lo / divFactor) (ceilDiv hi divFactor) 0 divFactor).filterMap
          fun p => chunkPosition lo hi divFactor p.2 p.1) := by
  have hstart : ∀ env, ((segmentBounds literalStart lo hi).1).eval env = lo := fun _ => by cases literalStart <;> rfl
  have hstop : ∀ env, ((segmentBounds literalStart lo hi).2).eval env = hi := fun _ => rfl
  let rel : DivideRelNode := ⟨1, 2, 3, divFactor⟩
  let offsets := rel.deriveIterBounds 3 (segmentBounds literalStart lo hi)
  refine positions_eq n env (o := (literal 0, literal divFactor)) (i := offsets)
    (r := [.varDecl 1 (rel.recoverVariable var (segmentBounds literalStart lo hi)),
      .continueIf (.gte (var 1) (mul (add (var 2) (literal 1)) (sub offsets.2 offsets.1)))] ++
      coordinateSteps coordArray (segmentBounds literalStart lo hi))
    h (fun env => rfl) (fun env => ?_) (fun env => ?_) rfl rfl
  · simp [Bounds.values, offsets, rel, DivideRelNode.deriveIterBounds, hstart, hstop, ceilDiv]
  · have hvalue : (rel.recoverVariable var (segmentBounds literalStart lo hi)).eval env =
        env 2 * ceilDiv (hi - lo) divFactor + env 3 := by
      simp [rel, DivideRelNode.recoverVariable, hstart, hstop, ceilDiv]
    have hguard : ∀ env', (Condition.gte (var 1) (mul (add (var 2) (literal 1)) (sub offsets.2 offsets.1))).eval env' = true ↔
        (env' 2 + 1) * (ceilDiv hi divFactor - lo / divFactor) ≤ env' 1 := fun env' => by
      simp [Condition.eval, offsets, rel, DivideRelNode.deriveIterBounds, hstart, hstop, ceilDiv]
    have hguard := hguard (Function.update env 1 (env 2 * ceilDiv (hi - lo) divFactor + env 3))
    rw [Function.update_self, Function.update_of_ne (by decide : (2 : IndexVar) ≠ 1)] at hguard
    rw [runRecovery_coordinate, runRecovery, hvalue, runRecovery]
    unfold chunkPosition
    by_cases hchunk : (env 2 + 1) * (ceilDiv hi divFactor - lo / divFactor) ≤ env 2 * ceilDiv (hi - lo) divFactor + env 3
    · rw [if_pos (hguard.mpr hchunk), if_neg fun h => absurd hchunk (not_le.mpr h.1)]
      rfl
    · rw [if_neg fun h => hchunk (hguard.mp h), runRecovery, Option.bind_some, Function.update_self]
      rw [not_le] at hchunk
      simp only [hchunk, true_and]
      split_ifs <;> simp

/-- A position of the segment has one chunk and one offset, exactly if the segment starts within the first chunk and
    the chunks of `[0, hi)` are as large as those of the segment. -/
theorem chunks_eachOnce_iff (c : ℕ) :
    EachOnce 0 c (lo / c) (ceilDiv hi c) (chunkPosition lo hi c) lo hi ↔
      hi ≤ lo ∨ lo < c ∧ ceilDiv hi c = ceilDiv (hi - lo) c := by
  constructor
  · rintro ⟨hunique, hcovers⟩
    by_contra hne
    simp only [not_or, not_le, not_and] at hne
    obtain ⟨hlt, hne⟩ := hne
    have hc : 0 < c := by
      obtain ⟨o, i, hoi, -⟩ := (hcovers lo).mpr ⟨Nat.le_refl lo, hlt⟩
      have := mem_pairs.mp hoi
      omega
    rcases Nat.lt_or_ge lo c with hlo | hlo
    · -- the chunk before the last one reaches into it
      have hlt' : ceilDiv (hi - lo) c < ceilDiv hi c :=
        lt_of_le_of_ne (ceilDiv_mono (Nat.sub_le hi lo)) (Ne.symm (hne hlo))
      have hK : 0 < ceilDiv (hi - lo) c := (lt_ceilDiv hc).mpr (by omega)
      have hend : ceilDiv (hi - lo) c * c < hi := (lt_ceilDiv hc).mp hlt'
      have hc2 : 2 ≤ c := by
        by_contra hc1
        obtain rfl : c = 1 := by omega
        obtain rfl : lo = 0 := by omega
        exact hne Nat.one_pos rfl
      have hL : lo / c = 0 := Nat.div_eq_of_lt hlo
      obtain ⟨d, rfl⟩ : ∃ d, c = d + 2 := ⟨c - 2, by omega⟩
      generalize hsize : ceilDiv (hi - lo) (d + 2) = K at *
      have hlast : (d + 1) * K ≤ (d + 2) * K := Nat.mul_le_mul_right K (by omega)
      have hfirst : (d + 1) * 1 ≤ (d + 1) * K := Nat.mul_le_mul_left (d + 1) hK
      have hrange : lo ≤ (d + 1) * K ∧ (d + 1) * K < hi := by
        rw [Nat.mul_comm] at hend
        omega
      have hchunk : ∀ m, d + 1 ≤ m → (d + 1) * K < m * (ceilDiv hi (d + 2) - lo / (d + 2)) := fun m hm => by
        rw [hL, Nat.sub_zero]
        exact Nat.mul_lt_mul_of_le_of_lt hm hlt' (by omega)
      have := (hunique d K (d + 1) 0 ((d + 1) * K) (mem_pairs.mpr (by omega)) (mem_pairs.mpr (by omega))
        (chunkPosition_eq_some.mpr ⟨by rw [hsize]; ring, hchunk _ (by omega), hrange⟩)
        (chunkPosition_eq_some.mpr ⟨by rw [hsize]; ring, hchunk _ (by omega), hrange⟩)).1
      omega
    · -- the last position lies behind the last chunk
      obtain ⟨o, i, hoi, hx⟩ := (hcovers (hi - 1)).mpr (by omega)
      obtain ⟨-, hchunk, -⟩ := chunkPosition_eq_some.mp hx
      have ho : o < c := (mem_pairs.mp hoi).1.2
      have hL : 1 ≤ lo / c := (Nat.one_le_div_iff hc).mpr hlo
      have hU : 0 < ceilDiv hi c := (lt_ceilDiv hc).mpr (by omega)
      have hend : (ceilDiv hi c - 1) * c < hi := (lt_ceilDiv hc).mp (by omega)
      have hbound : (o + 1) * (ceilDiv hi c - lo / c) ≤ c * (ceilDiv hi c - 1) :=
        Nat.mul_le_mul ho (Nat.sub_le_sub_left hL _)
      rw [Nat.mul_comm c] at hbound
      omega
  · rintro (hle | ⟨hlo, hsize⟩)
    · refine ⟨fun o i o' i' x _ _ hx _ => ?_, fun x => ⟨fun ⟨o, i, _, hx⟩ => ?_, fun hx => ?_⟩⟩
      · have := (chunkPosition_eq_some.mp hx).2.2
        omega
      · exact (chunkPosition_eq_some.mp hx).2.2
      · omega
    · rw [Nat.div_eq_of_lt hlo]
      have hc : 0 < c := by omega
      refine ⟨fun o i o' i' x hoi hoi' hx hx' => ?_, fun x => ⟨fun ⟨o, i, _, hx⟩ => ?_, fun hx => ?_⟩⟩
      · have hi := (mem_pairs.mp hoi).2.2
        have hi' := (mem_pairs.mp hoi').2.2
        have hsame := (chunkPosition_eq_some.mp hx).1.trans (chunkPosition_eq_some.mp hx').1.symm
        rw [hsize] at hi hi'
        constructor
        · rw [← div_strip (o := o) hi, hsame, div_strip hi']
        · rw [← mod_strip (o := o) hi, hsame, mod_strip hi']
      · exact (chunkPosition_eq_some.mp hx).2.2
      · have hK : 0 < ceilDiv hi c := (lt_ceilDiv hc).mpr (by omega)
        have hend : hi ≤ ceilDiv hi c * c := not_lt.mp fun h => Nat.lt_irrefl _ ((lt_ceilDiv hc).mpr h)
        have hdiv := Nat.div_add_mod' x (ceilDiv hi c)
        have hmod := Nat.mod_lt x hK
        refine ⟨x / ceilDiv hi c, x % ceilDiv hi c, mem_pairs.mpr ⟨⟨Nat.zero_le _, ?_⟩, Nat.zero_le _, hmod⟩,
          chunkPosition_eq_some.mpr ⟨?_, ?_, hx⟩⟩
        · exact Nat.div_lt_of_lt_mul (by omega)
        · rw [← hsize, hdiv]
        · rw [Nat.div_eq_of_lt hlo, Nat.sub_zero, Nat.add_mul, Nat.one_mul]
          omega

end Scheduling
end Taco
