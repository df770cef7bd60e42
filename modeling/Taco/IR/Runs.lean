import Taco.IR.Stmt

/-! The runs of each statement in terms of the runs of its parts. -/

namespace Taco
namespace IR
open Expr

/-! ### Equations of a run -/

section Equations

variable (fuel : ℕ) (s : Stmt) (σ : State)

theorem run_block (contents : List Stmt) :
    run (fuel + 1) (.block contents) σ = contents.foldlM (fun σ s => run fuel s σ) σ := rfl

theorem run_scope : run (fuel + 1) (.scope s) σ = (run fuel s σ).map (State.leave s.declared σ) := rfl

theorem run_varDecl (v : Var) (rhs : Expr) :
    run (fuel + 1) (.varDecl v rhs) σ = (rhs.eval σ.mem).map (σ.set v) := rfl

theorem run_assign (v : Var) (rhs : Expr) :
    run (fuel + 1) (.assign v rhs) σ = (rhs.eval σ.mem).map (σ.set v) := rfl

theorem run_store (arr : ArrayVar) (loc data : Expr) :
    run (fuel + 1) (.store arr loc data) σ =
      (loc.eval σ.mem).bind fun l => (data.eval σ.mem).bind fun x => some (σ.write arr l x) := rfl

theorem run_yield (coords : List Var) (val : Expr) :
    run (fuel + 1) (.yield coords val) σ = (val.eval σ.mem).map (σ.emit coords) := rfl

/-- Running the branch that is taken, if there is one. -/
def runBranch (σ : State) : Option Stmt → Option State
  | some s => run fuel s σ
  | none => some σ

theorem run_ifThenElse (cond : Expr) (otherwise : Option Stmt) :
    run (fuel + 1) (.ifThenElse cond s otherwise) σ =
      (cond.eval σ.mem).bind fun x => runBranch fuel σ (if x ≠ 0 then some s else otherwise) := by
  refine congrArg (Option.bind _) (funext fun x => ?_)
  split_ifs
  · cases otherwise <;> rfl
  · rfl

theorem run_case (clauses : List (Expr × Stmt)) (alwaysMatch : Bool) :
    run (fuel + 1) (.case clauses alwaysMatch) σ = (firstMatch σ.mem alwaysMatch clauses).bind (runBranch fuel σ) :=
  congrArg (Option.bind _) (funext fun b => by cases b <;> rfl)

theorem run_switch (cases : List (Expr × Stmt)) (controlExpr : Expr) :
    run (fuel + 1) (.switch cases controlExpr) σ =
      (controlExpr.eval σ.mem).bind fun x => (matchingCase σ.mem x cases).bind (runBranch fuel σ) :=
  congrArg (Option.bind _) (funext fun x => congrArg (Option.bind _) (funext fun b => by cases b <;> rfl))

/-- The `while` loop that a `for` loop is, once its variable is initialised. -/
def forLoop (v e : Var) (inc : Expr) (body : Stmt) : Stmt :=
  .while (.compare .lt (.var v) (.var e)) (.block [body, .assign v (.binary .add (.var v) inc)])

theorem run_for (v e : Var) (start inc : Expr) :
    run (fuel + 1) (.for v start e inc s) σ =
      (start.eval σ.mem).bind fun x => (run fuel (forLoop v e inc s) (σ.set v x)).map (State.leave [v] σ) := rfl

theorem run_while (cond : Expr) :
    run (fuel + 1) (.while cond s) σ =
      (cond.eval σ.mem).bind fun x =>
        if x ≠ 0 then (run fuel s σ).bind (run fuel (.while cond s)) else some σ := rfl

end Equations

/-! ### Fuel -/

theorem foldlM_mono {α β : Type} {f g : β → α → Option β} (h : ∀ a b c, f b a = some c → g b a = some c) :
    ∀ (as : List α) (b c : β), as.foldlM f b = some c → as.foldlM g b = some c
  | [], _, _, hb => hb
  | a :: as, b, c, hb => by
    rw [List.foldlM_cons] at hb ⊢
    obtain ⟨d, hd, hc⟩ := Option.bind_eq_some_iff.mp hb
    exact Option.bind_eq_some_iff.mpr ⟨d, h a b d hd, foldlM_mono h as d c hc⟩

/-- A run does not depend on the fuel, once there is enough. -/
theorem run_mono {s : Stmt} {σ σ' : State} : ∀ {fuel fuel' : ℕ}, fuel ≤ fuel' → run fuel s σ = some σ' →
    run fuel' s σ = some σ'
  | 0, _, _, h => by cases h
  | fuel + 1, 0, hle, _ => absurd hle (by omega)
  | fuel + 1, fuel' + 1, hle, h => by
    have ih : ∀ (t : Stmt) (τ τ' : State), run fuel t τ = some τ' → run fuel' t τ = some τ' :=
      fun t τ τ' => run_mono (Nat.le_of_succ_le_succ hle)
    have hbranch : ∀ (b : Option Stmt), runBranch fuel σ b = some σ' → runBranch fuel' σ b = some σ' := by
      intro b hb
      cases b with
      | none => exact hb
      | some t => exact ih t σ σ' hb
    cases s with
    | block contents =>
      rw [run_block] at h ⊢
      exact foldlM_mono (fun t τ τ' => ih t τ τ') contents σ σ' h
    | scope t =>
      rw [run_scope, Option.map_eq_some_iff] at h ⊢
      obtain ⟨τ, hτ, rfl⟩ := h
      exact ⟨τ, ih t σ τ hτ, rfl⟩
    | varDecl | assign | store | yield => exact h
    | ifThenElse cond t otherwise =>
      rw [run_ifThenElse, Option.bind_eq_some_iff] at h ⊢
      obtain ⟨x, hx, h⟩ := h
      exact ⟨x, hx, hbranch _ h⟩
    | case clauses alwaysMatch =>
      rw [run_case, Option.bind_eq_some_iff] at h ⊢
      obtain ⟨b, hb, h⟩ := h
      exact ⟨b, hb, hbranch b h⟩
    | switch cases controlExpr =>
      simp only [run_switch, Option.bind_eq_some_iff] at h ⊢
      obtain ⟨x, hx, b, hb, h⟩ := h
      exact ⟨x, hx, b, hb, hbranch b h⟩
    | «for» v start e inc body =>
      simp only [run_for, Option.bind_eq_some_iff, Option.map_eq_some_iff] at h ⊢
      obtain ⟨x, hx, τ, hτ, rfl⟩ := h
      exact ⟨x, hx, τ, ih _ _ τ hτ, rfl⟩
    | «while» cond body =>
      rw [run_while, Option.bind_eq_some_iff] at h ⊢
      obtain ⟨x, hx, h⟩ := h
      refine ⟨x, hx, ?_⟩
      split_ifs at h ⊢ with hc
      · obtain ⟨τ, hτ, h⟩ := Option.bind_eq_some_iff.mp h
        exact Option.bind_eq_some_iff.mpr ⟨τ, ih body σ τ hτ, ih _ τ σ' h⟩
      · exact h

theorem Runs.det {s : Stmt} {σ τ τ' : State} (h : Runs s σ τ) (h' : Runs s σ τ') : τ = τ' := by
  obtain ⟨f, hf⟩ := h
  obtain ⟨f', hf'⟩ := h'
  rcases le_total f f' with hle | hle
  · exact Option.some.inj ((run_mono hle hf).symm.trans hf')
  · exact Option.some.inj (hf.symm.trans (run_mono hle hf'))

/-! ### Runs of each statement -/

variable {s t : Stmt} {σ σ' : State}

/-- A statement runs as its equation says, one level of fuel deeper. -/
theorem runs_iff_succ : Runs s σ σ' ↔ ∃ fuel, run (fuel + 1) s σ = some σ' := by
  constructor
  · rintro ⟨f, h⟩
    exact ⟨f, run_mono (Nat.le_succ f) h⟩
  · rintro ⟨f, h⟩
    exact ⟨f + 1, h⟩

theorem runs_block_nil : Runs (.block []) σ σ' ↔ σ' = σ := by
  simp only [runs_iff_succ, run_block, List.foldlM_nil]
  constructor
  · rintro ⟨-, h⟩
    exact (Option.some.inj h).symm
  · rintro rfl
    exact ⟨0, rfl⟩

theorem runs_block_cons {ss : List Stmt} :
    Runs (.block (s :: ss)) σ σ' ↔ ∃ τ, Runs s σ τ ∧ Runs (.block ss) τ σ' := by
  rw [runs_iff_succ]
  constructor
  · rintro ⟨f, h⟩
    rw [run_block, List.foldlM_cons] at h
    obtain ⟨τ, hτ, h⟩ := Option.bind_eq_some_iff.mp h
    exact ⟨τ, ⟨f, hτ⟩, runs_iff_succ.mpr ⟨f, h⟩⟩
  · rintro ⟨τ, ⟨f, hτ⟩, hss⟩
    obtain ⟨f', h⟩ := runs_iff_succ.mp hss
    refine ⟨max f f', ?_⟩
    rw [run_block, List.foldlM_cons]
    refine Option.bind_eq_some_iff.mpr ⟨τ, run_mono (Nat.le_max_left _ _) hτ, ?_⟩
    have h := run_mono (Nat.succ_le_succ (Nat.le_max_right f f')) h
    rwa [run_block] at h

theorem runs_block_append {ss ts : List Stmt} :
    Runs (.block (ss ++ ts)) σ σ' ↔ ∃ τ, Runs (.block ss) σ τ ∧ Runs (.block ts) τ σ' := by
  induction ss generalizing σ with
  | nil => simp [runs_block_nil]
  | cons s ss ih =>
    rw [List.cons_append, runs_block_cons]
    constructor
    · rintro ⟨ρ, hs, h⟩
      obtain ⟨τ, hss, hts⟩ := ih.mp h
      exact ⟨τ, runs_block_cons.mpr ⟨ρ, hs, hss⟩, hts⟩
    · rintro ⟨τ, h, hts⟩
      obtain ⟨ρ, hs, hss⟩ := runs_block_cons.mp h
      exact ⟨ρ, hs, ih.mpr ⟨τ, hss, hts⟩⟩

theorem runs_block_singleton : Runs (.block [s]) σ σ' ↔ Runs s σ σ' := by
  rw [runs_block_cons]
  constructor
  · rintro ⟨τ, hs, h⟩
    rwa [runs_block_nil.mp h]
  · intro h
    exact ⟨σ', h, runs_block_nil.mpr rfl⟩

theorem runs_scope : Runs (.scope s) σ σ' ↔ ∃ τ, Runs s σ τ ∧ σ' = .leave s.declared σ τ := by
  rw [runs_iff_succ]
  simp only [run_scope, Option.map_eq_some_iff]
  constructor
  · rintro ⟨f, τ, hτ, rfl⟩
    exact ⟨τ, ⟨f, hτ⟩, rfl⟩
  · rintro ⟨τ, ⟨f, hτ⟩, rfl⟩
    exact ⟨f, τ, hτ, rfl⟩

/-- A run whose equation does not use the fuel. -/
theorem runs_of_run_eq {o : Option State} (h : ∀ fuel, run (fuel + 1) s σ = o) : Runs s σ σ' ↔ o = some σ' := by
  simp only [runs_iff_succ, h, exists_const]

theorem runs_varDecl {v : Var} {rhs : Expr} :
    Runs (.varDecl v rhs) σ σ' ↔ ∃ x, rhs.eval σ.mem = some x ∧ σ' = σ.set v x := by
  rw [runs_of_run_eq fun fuel => run_varDecl fuel σ v rhs, Option.map_eq_some_iff]
  exact exists_congr fun x => and_congr_right fun _ => eq_comm

theorem runs_assign {v : Var} {rhs : Expr} :
    Runs (.assign v rhs) σ σ' ↔ ∃ x, rhs.eval σ.mem = some x ∧ σ' = σ.set v x := by
  rw [runs_of_run_eq fun fuel => run_assign fuel σ v rhs, Option.map_eq_some_iff]
  exact exists_congr fun x => and_congr_right fun _ => eq_comm

theorem runs_store {arr : ArrayVar} {loc data : Expr} :
    Runs (.store arr loc data) σ σ' ↔
      ∃ l x, loc.eval σ.mem = some l ∧ data.eval σ.mem = some x ∧ σ' = σ.write arr l x := by
  simp only [runs_of_run_eq fun fuel => run_store fuel σ arr loc data, Option.bind_eq_some_iff, Option.some.injEq]
  constructor
  · rintro ⟨l, hl, x, hx, rfl⟩
    exact ⟨l, x, hl, hx, rfl⟩
  · rintro ⟨l, x, hl, hx, rfl⟩
    exact ⟨l, hl, x, hx, rfl⟩

theorem runs_yield {coords : List Var} {val : Expr} :
    Runs (.yield coords val) σ σ' ↔ ∃ x, val.eval σ.mem = some x ∧ σ' = σ.emit coords x := by
  rw [runs_of_run_eq fun fuel => run_yield fuel σ coords val, Option.map_eq_some_iff]
  exact exists_congr fun x => and_congr_right fun _ => eq_comm

/-- What runs of a conditional: a branch, or nothing. -/
def RunsBranch (b : Option Stmt) (σ σ' : State) : Prop := ∃ fuel, runBranch fuel σ b = some σ'

theorem runsBranch_some : RunsBranch (some s) σ σ' ↔ Runs s σ σ' := Iff.rfl

theorem runsBranch_none : RunsBranch none σ σ' ↔ σ' = σ := by
  constructor
  · rintro ⟨_, h⟩
    exact (Option.some.inj h).symm
  · rintro rfl
    exact ⟨0, rfl⟩

theorem runs_ifThenElse {cond : Expr} {otherwise : Option Stmt} :
    Runs (.ifThenElse cond s otherwise) σ σ' ↔
      ∃ x, cond.eval σ.mem = some x ∧ RunsBranch (if x ≠ 0 then some s else otherwise) σ σ' := by
  simp only [runs_iff_succ, run_ifThenElse, Option.bind_eq_some_iff, RunsBranch]
  constructor
  · rintro ⟨f, x, hx, h⟩
    exact ⟨x, hx, f, h⟩
  · rintro ⟨x, hx, f, h⟩
    exact ⟨f, x, hx, h⟩

theorem runs_case {clauses : List (Expr × Stmt)} {alwaysMatch : Bool} :
    Runs (.case clauses alwaysMatch) σ σ' ↔
      ∃ b, firstMatch σ.mem alwaysMatch clauses = some b ∧ RunsBranch b σ σ' := by
  simp only [runs_iff_succ, run_case, Option.bind_eq_some_iff, RunsBranch]
  constructor
  · rintro ⟨f, b, hb, h⟩
    exact ⟨b, hb, f, h⟩
  · rintro ⟨b, hb, f, h⟩
    exact ⟨f, b, hb, h⟩

theorem runs_switch {cases : List (Expr × Stmt)} {controlExpr : Expr} :
    Runs (.switch cases controlExpr) σ σ' ↔
      ∃ x b, controlExpr.eval σ.mem = some x ∧ matchingCase σ.mem x cases = some b ∧ RunsBranch b σ σ' := by
  simp only [runs_iff_succ, run_switch, Option.bind_eq_some_iff, RunsBranch]
  constructor
  · rintro ⟨f, x, hx, b, hb, h⟩
    exact ⟨x, b, hx, hb, f, h⟩
  · rintro ⟨x, b, hx, hb, f, h⟩
    exact ⟨f, x, hx, b, hb, h⟩

theorem runs_while {cond : Expr} :
    Runs (.while cond s) σ σ' ↔
      ∃ x, cond.eval σ.mem = some x ∧
        if x ≠ 0 then ∃ τ, Runs s σ τ ∧ Runs (.while cond s) τ σ' else σ' = σ := by
  rw [runs_iff_succ]
  constructor
  · rintro ⟨f, h⟩
    rw [run_while, Option.bind_eq_some_iff] at h
    obtain ⟨x, hx, h⟩ := h
    refine ⟨x, hx, ?_⟩
    split_ifs at h ⊢ with hc
    · obtain ⟨τ, hτ, h⟩ := Option.bind_eq_some_iff.mp h
      exact ⟨τ, ⟨f, hτ⟩, ⟨f, h⟩⟩
    · exact (Option.some.inj h).symm
  · rintro ⟨x, hx, h⟩
    simp only [run_while, hx, Option.bind_some]
    split_ifs at h ⊢ with hc
    · obtain ⟨τ, ⟨f, hτ⟩, f', h⟩ := h
      refine ⟨max f f', Option.bind_eq_some_iff.mpr ⟨τ, run_mono (Nat.le_max_left _ _) hτ, ?_⟩⟩
      exact run_mono (Nat.le_max_right _ _) h
    · exact ⟨0, congrArg some h.symm⟩

theorem runs_for {v e : Var} {start inc : Expr} :
    Runs (.for v start e inc s) σ σ' ↔
      ∃ x τ, start.eval σ.mem = some x ∧ Runs (forLoop v e inc s) (σ.set v x) τ ∧ σ' = .leave [v] σ τ := by
  rw [runs_iff_succ]
  constructor
  · rintro ⟨f, h⟩
    simp only [run_for, Option.bind_eq_some_iff, Option.map_eq_some_iff] at h
    obtain ⟨x, hx, τ, hτ, rfl⟩ := h
    exact ⟨x, τ, hx, ⟨f, hτ⟩, rfl⟩
  · rintro ⟨x, τ, hx, ⟨f, hτ⟩, rfl⟩
    refine ⟨f, ?_⟩
    simp only [run_for, hx, Option.bind_some, Option.map_eq_some_iff]
    exact ⟨τ, hτ, rfl⟩

/-! ### Constructed statements -/

@[simp] theorem State.leave_nil (σ τ : State) : State.leave [] σ τ = τ := by
  simp [State.leave]

theorem runs_scope_of_declared_nil (h : s.declared = []) : Runs (.scope s) σ σ' ↔ Runs s σ σ' := by
  rw [runs_scope, h]
  simp

theorem runs_makeScope : Runs (.makeScope s) σ σ' ↔ Runs (.scope s) σ σ' := by
  cases s with
  | scope t => exact (runs_scope_of_declared_nil rfl).symm
  | _ => exact Iff.rfl

theorem Stmt.eq_of_isNop (h : s.isNop = true) : s = .block [] := by
  unfold Stmt.isNop at h
  split at h
  · rfl
  · cases h

theorem runs_makeBlock {ss : List Stmt} : Runs (.makeBlock ss) σ σ' ↔ Runs (.block ss) σ σ' := by
  induction ss generalizing σ with
  | nil => exact Iff.rfl
  | cons s ss ih =>
    rw [Stmt.makeBlock, List.filter_cons]
    split_ifs with hs
    · rw [runs_block_cons, runs_block_cons]
      exact exists_congr fun τ => and_congr_right fun _ => ih
    · obtain rfl := Stmt.eq_of_isNop (by simpa using hs)
      rw [runs_block_cons]
      constructor
      · intro h
        exact ⟨σ, runs_block_nil.mpr rfl, ih.mp h⟩
      · rintro ⟨τ, hτ, h⟩
        rw [runs_block_nil.mp hτ] at h
        exact ih.mpr h

theorem runs_makeIf {cond : Expr} :
    Runs (.makeIf cond s) σ σ' ↔
      ∃ x, cond.eval σ.mem = some x ∧ if x ≠ 0 then Runs (.scope s) σ σ' else σ' = σ := by
  rw [Stmt.makeIf, runs_ifThenElse]
  refine exists_congr fun x => and_congr_right fun _ => ?_
  split_ifs
  · exact runs_makeScope
  · exact runsBranch_none

theorem declaredAll_append (ss ts : List Stmt) :
    Stmt.declaredAll (ss ++ ts) = Stmt.declaredAll ss ++ Stmt.declaredAll ts := by
  induction ss with
  | nil => rfl
  | cons s ss ih => rw [List.cons_append, Stmt.declaredAll, Stmt.declaredAll, ih, List.append_assoc]

theorem declaredAll_filter (ss : List Stmt) :
    Stmt.declaredAll (ss.filter fun s => !s.isNop) = Stmt.declaredAll ss := by
  induction ss with
  | nil => rfl
  | cons s ss ih =>
    rw [List.filter_cons]
    split_ifs with hs
    · rw [Stmt.declaredAll, Stmt.declaredAll, ih]
    · obtain rfl := Stmt.eq_of_isNop (by simpa using hs)
      rw [Stmt.declaredAll, ih]
      rfl

end IR
end Taco
