import Taco.Codegen.Coroutine
import Taco.IR.SimplifyStmt

/-! The labels at which a coroutine resumes: where they are printed, stored and jumped to. -/

namespace Taco
namespace Codegen

open IR

/-! ### The text of a coroutine -/

/-- The parts of the text that concern the state of a coroutine. -/
inductive Piece where
  /-- `case state: goto label;` -/
  | caseGoto (state label : ℕ)
  | storeState (state : ℕ)
  | returnSize
  | label (number : ℕ)
  deriving DecidableEq

/-- The dispatch of `printContextDeclAndInit`. -/
def printContextDeclAndInit (labels : ℕ) : List Piece := (List.range (labels + 1)).map fun i => .caseGoto i i

/-- `printYield`; the count of labels is passed by value, so that its increment is lost. -/
def printYield (labelCount : ℕ) : List Piece := [.storeState labelCount, .returnSize, .label labelCount]

/-- `printCoroutineFinish`: the state is stored in front of the condition that is meant to guard it. -/
def printCoroutineFinish (numYields : ℕ) : List Piece := [.storeState numYields, .returnSize, .label numYields]

mutual

/-- The visit of a statement, from the count of labels on, and the count after it. -/
def printStmt : Stmt → ℕ → List Piece × ℕ
  | .block contents, labelCount => printAll contents labelCount
  | .scope s, labelCount | .for _ _ _ _ s, labelCount | .while _ s, labelCount => printStmt s labelCount
  | .yield .., labelCount => (printYield labelCount, labelCount)
  | .ifThenElse _ s none, labelCount => printStmt s labelCount
  | .ifThenElse _ s (some t), labelCount =>
    let (thenText, labelCount) := printStmt s labelCount
    let (elseText, labelCount) := printStmt t labelCount
    (thenText ++ elseText, labelCount)
  | .case clauses _, labelCount | .switch clauses _, labelCount => printClauses clauses labelCount
  | .varDecl .., labelCount | .assign .., labelCount | .store .., labelCount => ([], labelCount)

def printAll : List Stmt → ℕ → List Piece × ℕ
  | [], labelCount => ([], labelCount)
  | s :: ss, labelCount =>
    let (text, labelCount) := printStmt s labelCount
    let (texts, labelCount) := printAll ss labelCount
    (text ++ texts, labelCount)

def printClauses : List (Expr × Stmt) → ℕ → List Piece × ℕ
  | [], labelCount => ([], labelCount)
  | (_, s) :: clauses, labelCount =>
    let (text, labelCount) := printStmt s labelCount
    let (texts, labelCount) := printClauses clauses labelCount
    (text ++ texts, labelCount)

end

/-- `visit` of a function: its yields are counted in the body as it is given, and printed from the simplified one. -/
def printFunction (simplify : Bool) (fuel : ℕ) (body : Stmt) : Option (List Piece) := do
  let numYields := countYields body
  let printed ← print simplify fuel (.makeScope body)
  let text := (printStmt printed 0).1
  some (if 0 < numYields then printContextDeclAndInit numYields ++ text ++ printCoroutineFinish numYields else text)

/-! ### Consistent labels -/

/-- The labels 0 to `n - 1` are in the text once each, a stored state is dispatched to the label of its number only,
    and each return stands between the store of a number and the label of that number. -/
structure Consistent (n : ℕ) (text : List Piece) : Prop where
  once : ∀ i < n, text.count (.label i) = 1
  dispatched : ∀ state, .storeState state ∈ text → ∀ label, .caseGoto state label ∈ text ↔ label = state
  own : ∀ before after, text = before ++ .returnSize :: after →
    ∃ number, before.getLast? = some (.storeState number) ∧ after.head? = some (.label number)

/-! ### The simplifier keeps the yields -/

theorem countYieldsAll_append (ss ts : List Stmt) : countYieldsAll (ss ++ ts) = countYieldsAll ss + countYieldsAll ts := by
  induction ss with
  | nil => rw [List.nil_append, countYieldsAll, Nat.zero_add]
  | cons s ss ih => rw [List.cons_append, countYieldsAll, countYieldsAll, ih, Nat.add_assoc]

theorem countYields_of_isNop {s : Stmt} (h : s.isNop = true) : countYields s = 0 := by
  cases s with
  | block contents =>
    cases contents with
    | nil => rfl
    | cons s ss => cases h
  | _ => cases h

@[simp] theorem countYields_makeBlock (ss : List Stmt) : countYields (.makeBlock ss) = countYieldsAll ss := by
  rw [Stmt.makeBlock, countYields]
  induction ss with
  | nil => rfl
  | cons s ss ih =>
    cases hnop : s.isNop with
    | true =>
      rw [List.filter_cons_of_neg (by simp [hnop]), ih, countYieldsAll, countYields_of_isNop hnop, Nat.zero_add]
    | false => rw [List.filter_cons_of_pos (by simp [hnop]), countYieldsAll, countYieldsAll, ih]

@[simp] theorem countYields_makeScope (s : Stmt) : countYields (.makeScope s) = countYields s := by
  cases s <;> rfl

/-- The node of a rewritten block. -/
theorem countYields_rebuilt (rs : List RewrittenStmt) :
    countYields (if rs.any RewrittenStmt.isNew then (⟨.makeBlock (rs.map RewrittenStmt.stmt), true⟩ : RewrittenStmt)
      else ⟨.block (rs.map RewrittenStmt.stmt), false⟩).stmt = countYieldsAll (rs.map RewrittenStmt.stmt) := by
  split_ifs
  · exact countYields_makeBlock _
  · rfl

/-- The node of a rewritten loop. -/
theorem countYields_loop (isNew : Bool) (loop : Stmt) :
    countYields (if isNew then (⟨.block [loop], true⟩ : RewrittenStmt) else ⟨loop, false⟩).stmt = countYields loop := by
  split_ifs
  · rw [countYields, countYieldsAll, countYieldsAll, Nat.add_zero]
  · rfl

section CopyPropagation

variable {loopDependentVars : List Var}

mutual

theorem countYields_simplifier : ∀ {s : Stmt} {P P' : Simplifier} {r : RewrittenStmt},
    Simplifier.visit loopDependentVars s P = some (r, P') → countYields r.stmt = countYields s
  | .block contents, P, P', r, h => by
    simp only [Simplifier.visit, Option.bind_eq_bind, Option.bind_eq_some_iff, Option.some.injEq, Prod.mk.injEq] at h
    obtain ⟨⟨rs, Q⟩, hrs, rfl, rfl⟩ := h
    rw [countYields_rebuilt, countYieldsAll_simplifier hrs, countYields]
  | .scope s, P, P', r, h => by
    simp only [Simplifier.visit, Option.bind_eq_bind, Option.bind_eq_some_iff, Option.some.injEq, Prod.mk.injEq] at h
    obtain ⟨⟨q, Q⟩, hq, rfl, rfl⟩ := h
    rw [countYields_makeScope, countYields_simplifier hq, countYields]
  | .varDecl v rhs, P, P', r, h | .assign v rhs, P, P', r, h | .store v rhs _, P, P', r, h
  | .yield _ rhs, P, P', r, h => by
    simp only [Simplifier.visit, Option.bind_eq_bind, Option.bind_eq_some_iff, Option.some.injEq, Prod.mk.injEq] at h
    grind [countYields]
  | .ifThenElse cond s none, P, P', r, h => by
    simp only [Simplifier.visit, Option.bind_eq_bind, Option.bind_eq_some_iff, Option.some.injEq, Prod.mk.injEq] at h
    obtain ⟨⟨c, Q⟩, -, ⟨q, Q'⟩, hq, rfl, rfl⟩ := h
    rw [countYields, countYields_makeScope, countYields_simplifier hq, countYields]
  | .ifThenElse cond s (some t), P, P', r, h => by
    simp only [Simplifier.visit, Option.bind_eq_bind, Option.bind_eq_some_iff, Option.some.injEq, Prod.mk.injEq] at h
    obtain ⟨⟨c, Q⟩, -, ⟨q, Q'⟩, hq, ⟨q', Q''⟩, hq', rfl, rfl⟩ := h
    rw [countYields, countYields_makeScope, countYields_makeScope, countYields_simplifier hq, countYields_simplifier hq',
      countYields]
  | .case clauses alwaysMatch, P, P', r, h => by
    simp only [Simplifier.visit, Option.bind_eq_bind, Option.bind_eq_some_iff, Option.some.injEq, Prod.mk.injEq] at h
    obtain ⟨⟨cs, isNew, Q⟩, hcs, rfl, rfl⟩ := h
    rw [countYields, countYieldsClauses_simplifier hcs, countYields]
  | .switch cases control, P, P', r, h => by
    simp only [Simplifier.visit, Option.bind_eq_bind, Option.bind_eq_some_iff, Option.some.injEq, Prod.mk.injEq] at h
    obtain ⟨⟨c, Q⟩, -, ⟨cs, isNew, Q'⟩, hcs, rfl, rfl⟩ := h
    rw [countYields, countYieldsClauses_simplifier hcs, countYields]
  | .for v start e increment s, P, P', r, h => by
    simp only [Simplifier.visit, Option.bind_eq_bind, Option.bind_eq_some_iff] at h
    obtain ⟨⟨b, Q⟩, -, ⟨i, Q'⟩, -, ⟨q, Q''⟩, hq, h⟩ := h
    have hloop : countYields r.stmt = countYields q.stmt := by
      split at h <;> cases h
      · rw [countYields, countYieldsAll, countYieldsAll, countYields, countYields_makeScope, Nat.add_zero]
      · rw [countYields, countYields_makeScope]
    rw [hloop, countYields_simplifier hq, countYields]
  | .while cond s, P, P', r, h => by
    simp only [Simplifier.visit, Option.bind_eq_bind, Option.bind_eq_some_iff, Option.some.injEq, Prod.mk.injEq] at h
    obtain ⟨⟨c, Q⟩, -, ⟨q, Q'⟩, hq, rfl, rfl⟩ := h
    rw [countYields, countYields_makeScope, countYields_simplifier hq, countYields]

theorem countYieldsAll_simplifier : ∀ {ss : List Stmt} {P P' : Simplifier} {rs : List RewrittenStmt},
    Simplifier.visitAll loopDependentVars ss P = some (rs, P') →
      countYieldsAll (rs.map RewrittenStmt.stmt) = countYieldsAll ss
  | [], P, P', rs, h => by
    simp only [Simplifier.visitAll, Option.some.injEq, Prod.mk.injEq] at h
    obtain ⟨rfl, rfl⟩ := h
    rfl
  | s :: ss, P, P', rs, h => by
    simp only [Simplifier.visitAll, Option.bind_eq_bind, Option.bind_eq_some_iff, Option.some.injEq, Prod.mk.injEq] at h
    obtain ⟨⟨r, Q⟩, hr, ⟨rs', Q'⟩, hrs, rfl, rfl⟩ := h
    rw [List.map_cons, countYieldsAll, countYieldsAll, countYields_simplifier hr, countYieldsAll_simplifier hrs]

theorem countYieldsClauses_simplifier : ∀ {clauses cs : List (Expr × Stmt)} {P P' : Simplifier} {isNew : Bool},
    Simplifier.visitClauses loopDependentVars clauses P = some (cs, isNew, P') →
      countYieldsClauses cs = countYieldsClauses clauses
  | [], cs, P, P', isNew, h => by
    simp only [Simplifier.visitClauses, Option.some.injEq, Prod.mk.injEq] at h
    obtain ⟨rfl, rfl, rfl⟩ := h
    rfl
  | (e, s) :: clauses, cs, P, P', isNew, h => by
    simp only [Simplifier.visitClauses, Option.bind_eq_bind, Option.bind_eq_some_iff, Option.some.injEq,
      Prod.mk.injEq] at h
    obtain ⟨⟨c, Q⟩, -, ⟨r, Q'⟩, hr, ⟨cs', isNew', Q''⟩, hcs, rfl, rfl, rfl⟩ := h
    rw [countYieldsClauses, countYieldsClauses, countYields_makeScope, countYields_simplifier hr,
      countYieldsClauses_simplifier hcs]

end

end CopyPropagation

section RedundantDeclarations

variable (necessaryDecls : List ℕ)

mutual

theorem countYields_removeStmts : ∀ (s : Stmt) (n : ℕ),
    countYields (RemoveRedundantStmts.visit necessaryDecls s n).1.stmt = countYields s
  | .block contents, n => by
    simp only [RemoveRedundantStmts.visit]
    rw [countYields_rebuilt, countYieldsAll_removeStmts, countYields]
  | .scope s, n => by
    simp only [RemoveRedundantStmts.visit]
    rw [countYields_makeScope, countYields_removeStmts, countYields]
  | .varDecl v rhs, n => by
    simp only [RemoveRedundantStmts.visit]
    split_ifs <;> rfl
  | .ifThenElse cond s none, n => by
    simp only [RemoveRedundantStmts.visit]
    rw [countYields, countYields_makeScope, countYields_removeStmts, countYields]
  | .ifThenElse cond s (some t), n => by
    simp only [RemoveRedundantStmts.visit]
    rw [countYields, countYields_makeScope, countYields_makeScope, countYields_removeStmts, countYields_removeStmts,
      countYields]
  | .case clauses alwaysMatch, n => by
    simp only [RemoveRedundantStmts.visit]
    rw [countYields, countYieldsClauses_removeStmts, countYields]
  | .switch cases control, n => by
    simp only [RemoveRedundantStmts.visit]
    rw [countYields, countYieldsClauses_removeStmts, countYields]
  | .for v start e increment s, n => by
    simp only [RemoveRedundantStmts.visit]
    rw [countYields_loop, countYields, countYields_makeScope, countYields_removeStmts, countYields]
  | .while cond s, n => by
    simp only [RemoveRedundantStmts.visit]
    rw [countYields, countYields_makeScope, countYields_removeStmts, countYields]
  | .assign lhs rhs, n | .store arr loc data, n | .yield coords val, n => rfl

theorem countYieldsAll_removeStmts : ∀ (ss : List Stmt) (n : ℕ),
    countYieldsAll ((RemoveRedundantStmts.visitAll necessaryDecls ss n).1.map RewrittenStmt.stmt) = countYieldsAll ss
  | [], n => rfl
  | s :: ss, n => by
    simp only [RemoveRedundantStmts.visitAll, List.map_cons]
    rw [countYieldsAll, countYieldsAll, countYields_removeStmts, countYieldsAll_removeStmts]

theorem countYieldsClauses_removeStmts : ∀ (clauses : List (Expr × Stmt)) (n : ℕ),
    countYieldsClauses (RemoveRedundantStmts.visitClauses necessaryDecls clauses n).1 = countYieldsClauses clauses
  | [], n => rfl
  | (e, s) :: clauses, n => by
    simp only [RemoveRedundantStmts.visitClauses]
    rw [countYieldsClauses, countYieldsClauses, countYields_makeScope, countYields_removeStmts,
      countYieldsClauses_removeStmts]

end

end RedundantDeclarations

section RedundantLoops

theorem noYield_duplicateAssign {loopCount rhs : Expr} {lhs : Var} {t : Stmt}
    (h : duplicateAssign loopCount lhs rhs = some (some t)) : countYields t = 0 := by
  unfold duplicateAssign at h
  split at h
  · cases h
    rfl
  · split_ifs at h
    · obtain ⟨inc, -, h⟩ := Option.bind_eq_some_iff.mp h
      cases h
      rfl
    · cases h
  · cases h

mutual

/-- A body with a yield is not duplicated. -/
theorem noYield_duplicateBody {loopCount : Expr} : ∀ {s t : Stmt}, duplicateBody loopCount s = some (some t) →
    countYields s = 0 ∧ countYields t = 0
  | .block contents, t, h => by
    simp only [duplicateBody, Option.bind_eq_bind, Option.bind_eq_some_iff, Option.some.injEq, Option.map_eq_some_iff] at h
    obtain ⟨_, hts, ts, rfl, rfl⟩ := h
    rw [countYields, countYields_makeBlock]
    exact noYield_duplicateAll hts
  | .scope s, t, h => by
    simp only [duplicateBody, Option.bind_eq_bind, Option.bind_eq_some_iff, Option.some.injEq, Option.map_eq_some_iff] at h
    obtain ⟨_, ht, t', rfl, rfl⟩ := h
    rw [countYields, countYields_makeScope]
    exact noYield_duplicateBody ht
  | .assign lhs rhs, t, h => ⟨rfl, noYield_duplicateAssign h⟩
  | .varDecl .., t, h | .store .., t, h | .yield .., t, h | .ifThenElse .., t, h | .case .., t, h | .switch .., t, h
  | .for .., t, h | .while .., t, h => by
    simp [duplicateBody] at h

theorem noYield_duplicateAll {loopCount : Expr} : ∀ {ss ts : List Stmt}, duplicateAll loopCount ss = some (some ts) →
    countYieldsAll ss = 0 ∧ countYieldsAll ts = 0
  | [], ts, h => by
    simp only [duplicateAll, Option.some.injEq] at h
    subst h
    exact ⟨rfl, rfl⟩
  | s :: ss, ts, h => by
    simp only [duplicateAll, Option.bind_eq_bind, Option.bind_eq_some_iff] at h
    obtain ⟨_ | t, ht, h⟩ := h
    · cases h
    · simp only [Option.bind_eq_some_iff, Option.some.injEq, Option.map_eq_some_iff] at h
      obtain ⟨_, hts, ts', rfl, rfl⟩ := h
      obtain ⟨hs, ht⟩ := noYield_duplicateBody ht
      obtain ⟨hss, hts⟩ := noYield_duplicateAll hts
      rw [countYieldsAll, countYieldsAll, hs, ht, hss, hts]
      exact ⟨rfl, rfl⟩

end

theorem noYield_redundantFor {start increment : Expr} {e : Var} {s t : Stmt}
    (h : redundantFor start e increment s = some (some t)) : countYields s = 0 ∧ countYields t = 0 := by
  simp only [redundantFor, Option.bind_eq_bind, Option.bind_eq_some_iff, Option.some.injEq, Option.map_eq_some_iff] at h
  obtain ⟨loopCount, -, _, hbody, t', rfl, rfl⟩ := h
  rw [Stmt.makeIf, countYields, countYields_makeScope]
  exact noYield_duplicateBody hbody

theorem noYield_redundantCount {iter e : Var} {contents : List Stmt} {t : Stmt}
    (h : redundantCount iter e contents = some (some t)) : countYieldsAll contents = 0 ∧ countYields t = 0 := by
  simp only [redundantCount, Option.bind_eq_bind, Option.bind_eq_some_iff, Option.some.injEq, Option.map_eq_some_iff] at h
  obtain ⟨loopCount, -, _, hbody, t', rfl, rfl⟩ := h
  obtain ⟨hs, ht⟩ := noYield_duplicateBody hbody
  rw [countYields_makeBlock] at hs
  rw [Stmt.makeIf, countYields, countYields_makeScope, countYields_makeBlock, countYieldsAll, countYieldsAll, ht]
  exact ⟨hs, rfl⟩

theorem noYield_redundantWhile {cond : Expr} {s t : Stmt} (h : redundantWhile cond s = some (some t)) :
    countYields s = 0 ∧ countYields t = 0 := by
  unfold redundantWhile at h
  split at h
  · rename_i iter e stmts
    split_ifs at h
    · cases h
    · split at h
      · rename_i lhs a inc hlast
        split_ifs at h
        · obtain ⟨one, -, h⟩ := Option.bind_eq_some_iff.mp h
          split_ifs at h
          · obtain ⟨hrest, ht⟩ := noYield_redundantCount h
            obtain ⟨front, hstmts⟩ := List.getLast?_eq_some_iff.mp hlast
            rw [hstmts, List.dropLast_concat] at hrest
            rw [countYields, countYields, hstmts, countYieldsAll_append, hrest, ht]
            exact ⟨rfl, rfl⟩
          · cases h
        · cases h
      · cases h
      · cases h
  · cases h

/-- A loop that is replaced has no yield, nor has what stands in its place. -/
theorem countYields_visitLoop {redundant : Option (Option Stmt)} {rewritten : Option RewrittenStmt} {r : RewrittenStmt}
    {n : ℕ} (h : RemoveRedundantLoops.visitLoop redundant rewritten = some r)
    (hredundant : ∀ t, redundant = some (some t) → n = 0 ∧ countYields t = 0)
    (hrewritten : ∀ q, rewritten = some q → countYields q.stmt = n) : countYields r.stmt = n := by
  obtain ⟨_ | t, ht, h⟩ := Option.bind_eq_some_iff.mp h
  · exact hrewritten r h
  · obtain ⟨hn, hzero⟩ := hredundant t ht
    cases h
    exact hzero.trans hn.symm

mutual

theorem countYields_removeLoops : ∀ {s : Stmt} {r : RewrittenStmt}, RemoveRedundantLoops.visit s = some r →
    countYields r.stmt = countYields s
  | .block contents, r, h => by
    simp only [RemoveRedundantLoops.visit, Option.bind_eq_bind, Option.bind_eq_some_iff, Option.some.injEq] at h
    obtain ⟨rs, hrs, rfl⟩ := h
    rw [countYields_rebuilt, countYieldsAll_removeLoops hrs, countYields]
  | .scope s, r, h => by
    simp only [RemoveRedundantLoops.visit, Option.bind_eq_bind, Option.bind_eq_some_iff, Option.some.injEq] at h
    obtain ⟨q, hq, rfl⟩ := h
    rw [countYields_makeScope, countYields_removeLoops hq, countYields]
  | .ifThenElse cond s none, r, h => by
    simp only [RemoveRedundantLoops.visit, Option.bind_eq_bind, Option.bind_eq_some_iff, Option.some.injEq] at h
    obtain ⟨q, hq, rfl⟩ := h
    rw [countYields, countYields_makeScope, countYields_removeLoops hq, countYields]
  | .ifThenElse cond s (some t), r, h => by
    simp only [RemoveRedundantLoops.visit, Option.bind_eq_bind, Option.bind_eq_some_iff, Option.some.injEq] at h
    obtain ⟨q, hq, q', hq', rfl⟩ := h
    rw [countYields, countYields_makeScope, countYields_makeScope, countYields_removeLoops hq,
      countYields_removeLoops hq', countYields]
  | .case clauses alwaysMatch, r, h => by
    simp only [RemoveRedundantLoops.visit, Option.bind_eq_bind, Option.bind_eq_some_iff, Option.some.injEq] at h
    obtain ⟨⟨cs, isNew⟩, hcs, rfl⟩ := h
    rw [countYields, countYieldsClauses_removeLoops hcs, countYields]
  | .switch cases control, r, h => by
    simp only [RemoveRedundantLoops.visit, Option.bind_eq_bind, Option.bind_eq_some_iff, Option.some.injEq] at h
    obtain ⟨⟨cs, isNew⟩, hcs, rfl⟩ := h
    rw [countYields, countYieldsClauses_removeLoops hcs, countYields]
  | .for v start e increment s, r, h => by
    rw [RemoveRedundantLoops.visit] at h
    rw [countYields]
    refine countYields_visitLoop h (fun t ht => noYield_redundantFor ht) fun q hq => ?_
    obtain ⟨q', hq', hloop⟩ := Option.bind_eq_some_iff.mp hq
    cases hloop
    rw [countYields_loop, countYields, countYields_makeScope, countYields_removeLoops hq']
  | .while cond s, r, h => by
    rw [RemoveRedundantLoops.visit] at h
    rw [countYields]
    refine countYields_visitLoop h (fun t ht => noYield_redundantWhile ht) fun q hq => ?_
    obtain ⟨q', hq', hloop⟩ := Option.bind_eq_some_iff.mp hq
    cases hloop
    rw [countYields, countYields_makeScope, countYields_removeLoops hq']
  | .varDecl .., r, h | .assign .., r, h | .store .., r, h | .yield .., r, h => by
    cases h
    rfl

theorem countYieldsAll_removeLoops : ∀ {ss : List Stmt} {rs : List RewrittenStmt},
    RemoveRedundantLoops.visitAll ss = some rs → countYieldsAll (rs.map RewrittenStmt.stmt) = countYieldsAll ss
  | [], rs, h => by
    cases h
    rfl
  | s :: ss, rs, h => by
    simp only [RemoveRedundantLoops.visitAll, Option.bind_eq_bind, Option.bind_eq_some_iff, Option.some.injEq] at h
    obtain ⟨r, hr, rs', hrs, rfl⟩ := h
    rw [List.map_cons, countYieldsAll, countYieldsAll, countYields_removeLoops hr, countYieldsAll_removeLoops hrs]

theorem countYieldsClauses_removeLoops : ∀ {clauses cs : List (Expr × Stmt)} {isNew : Bool},
    RemoveRedundantLoops.visitClauses clauses = some (cs, isNew) → countYieldsClauses cs = countYieldsClauses clauses
  | [], cs, isNew, h => by
    cases h
    rfl
  | (e, s) :: clauses, cs, isNew, h => by
    simp only [RemoveRedundantLoops.visitClauses, Option.bind_eq_bind, Option.bind_eq_some_iff, Option.some.injEq,
      Prod.mk.injEq] at h
    obtain ⟨r, hr, ⟨cs', isNew'⟩, hcs, rfl, rfl⟩ := h
    rw [countYieldsClauses, countYieldsClauses, countYields_makeScope, countYields_removeLoops hr,
      countYieldsClauses_removeLoops hcs]

end

end RedundantLoops

theorem countYields_simplifyStmt {s : Stmt} {r : RewrittenStmt} (h : simplifyStmt s = some r) :
    countYields r.stmt = countYields s := by
  simp only [simplifyStmt, Option.bind_eq_bind, Option.bind_eq_some_iff, Option.some.injEq] at h
  obtain ⟨⟨q, P⟩, hq, t, ht, rfl⟩ := h
  exact (countYields_removeLoops ht).trans ((countYields_removeStmts _ _ _).trans (countYields_simplifier hq))

theorem countYields_simplifyFully {fuel : ℕ} {s t : Stmt} (h : simplifyFully fuel s = some t) :
    countYields t = countYields s := by
  induction fuel generalizing s with
  | zero => cases h
  | succ fuel ih =>
    obtain ⟨r, hr, h⟩ := Option.bind_eq_some_iff.mp h
    split_ifs at h
    · exact (ih h).trans (countYields_simplifyStmt hr)
    · cases h
      exact countYields_simplifyStmt hr

theorem countYields_print {simplify : Bool} {fuel : ℕ} {s t : Stmt} (h : print simplify fuel s = some t) :
    countYields t = countYields s := by
  have hfully : ∀ s : Stmt, (if simplify then simplifyFully fuel s else some s) = some t → countYields t = countYields s := by
    intro s h
    split_ifs at h
    · exact countYields_simplifyFully h
    · cases h
      rfl
  cases s with
  | scope s => exact hfully s h
  | _ => exact hfully _ h

/-! ### The printed labels -/

/-- The text of `n` yields that are printed with the same count of labels. -/
def printYields (n labelCount : ℕ) : List Piece := (List.replicate n (printYield labelCount)).flatten

theorem printYields_add (m n labelCount : ℕ) :
    printYields (m + n) labelCount = printYields m labelCount ++ printYields n labelCount := by
  rw [printYields, List.replicate_add, List.flatten_append, printYields, printYields]

mutual

/-- All yields are printed with the count of labels from before the statement. -/
theorem printStmt_eq : ∀ (s : Stmt) (labelCount : ℕ),
    printStmt s labelCount = (printYields (countYields s) labelCount, labelCount)
  | .block contents, labelCount => by
    rw [printStmt, countYields, printAll_eq]
  | .scope s, labelCount | .for _ _ _ _ s, labelCount | .while _ s, labelCount => by
    rw [printStmt, countYields, printStmt_eq]
  | .ifThenElse _ s none, labelCount => by
    rw [printStmt, countYields, printStmt_eq]
  | .ifThenElse _ s (some t), labelCount => by
    simp only [printStmt, printStmt_eq s, printStmt_eq t]
    rw [countYields, printYields_add]
  | .case clauses _, labelCount | .switch clauses _, labelCount => by
    rw [printStmt, countYields, printClauses_eq]
  | .varDecl .., labelCount | .assign .., labelCount | .store .., labelCount => rfl
  | .yield .., labelCount => rfl

theorem printAll_eq : ∀ (ss : List Stmt) (labelCount : ℕ),
    printAll ss labelCount = (printYields (countYieldsAll ss) labelCount, labelCount)
  | [], labelCount => rfl
  | s :: ss, labelCount => by
    simp only [printAll, printStmt_eq s, printAll_eq ss]
    rw [countYieldsAll, printYields_add]

theorem printClauses_eq : ∀ (clauses : List (Expr × Stmt)) (labelCount : ℕ),
    printClauses clauses labelCount = (printYields (countYieldsClauses clauses) labelCount, labelCount)
  | [], labelCount => rfl
  | (e, s) :: clauses, labelCount => by
    simp only [printClauses, printStmt_eq s, printClauses_eq clauses]
    rw [countYieldsClauses, printYields_add]

end

/-- The text depends on the number of yields only. -/
theorem printFunction_eq {simplify : Bool} {fuel : ℕ} {body : Stmt} {text : List Piece}
    (h : printFunction simplify fuel body = some text) :
    text = if 0 < countYields body then
      printContextDeclAndInit (countYields body) ++ printYields (countYields body) 0 ++
        printCoroutineFinish (countYields body)
      else [] := by
  obtain ⟨printed, hprinted, h⟩ := Option.bind_eq_some_iff.mp h
  have hcount : countYields printed = countYields body := (countYields_print hprinted).trans (countYields_makeScope body)
  simp only [printStmt_eq, hcount, Option.some.injEq] at h
  subst h
  split_ifs with hpos
  · rfl
  · rw [Nat.eq_zero_of_not_pos hpos]
    rfl

/-! ### Returns -/

/-- Each return stands between the store of a number and the label of that number. -/
def Own (text : List Piece) : Prop :=
  ∀ before after, text = before ++ .returnSize :: after →
    ∃ number, before.getLast? = some (.storeState number) ∧ after.head? = some (.label number)

theorem own_of_notMem {text : List Piece} (h : .returnSize ∉ text) : Own text := fun before _ heq =>
  absurd (heq ▸ List.mem_append_right before List.mem_cons_self) h

theorem Own.append {text text' : List Piece} (h : Own text) (h' : Own text') : Own (text ++ text') := by
  intro before after heq
  rcases List.append_eq_append_iff.mp heq with ⟨between, hbefore, hafter⟩ | ⟨between, htext, hbetween⟩
  · obtain ⟨number, hstore, hlabel⟩ := h' between after hafter
    refine ⟨number, ?_, hlabel⟩
    rw [hbefore, List.getLast?_append, hstore, Option.some_or]
  · cases between with
    | nil =>
      rw [List.append_nil] at htext
      obtain ⟨number, hstore, -⟩ := h' [] after hbetween.symm
      cases hstore
    | cons piece between =>
      rw [List.cons_append] at hbetween
      obtain ⟨rfl, rfl⟩ := List.cons.inj hbetween
      obtain ⟨number, hstore, hlabel⟩ := h before between htext
      refine ⟨number, hstore, ?_⟩
      rw [List.head?_append, hlabel, Option.some_or]

theorem own_printYield (number : ℕ) : Own (printYield number) := by
  intro before after heq
  match before with
  | [] => cases heq
  | [piece] =>
    cases heq
    exact ⟨number, rfl, rfl⟩
  | [_, _] => cases heq
  | _ :: _ :: _ :: _ => simp [printYield] at heq

theorem own_printYields (n labelCount : ℕ) : Own (printYields n labelCount) := by
  induction n with
  | zero => exact own_of_notMem (by simp [printYields])
  | succ n ih =>
    rw [printYields_add]
    exact ih.append (by simpa [printYields] using own_printYield labelCount)

/-! ### When the labels are consistent -/

theorem mem_printYields {piece : Piece} {n labelCount : ℕ} (h : piece ∈ printYields n labelCount) :
    piece ∈ printYield labelCount := by
  obtain ⟨text, htext, hmem⟩ := List.mem_flatten.mp h
  exact List.eq_of_mem_replicate htext ▸ hmem

theorem caseGoto_mem_printContextDeclAndInit {labels state label : ℕ} :
    .caseGoto state label ∈ printContextDeclAndInit labels ↔ state ≤ labels ∧ label = state := by
  simp only [printContextDeclAndInit, List.mem_map, List.mem_range, Piece.caseGoto.injEq]
  constructor
  · rintro ⟨i, hi, rfl, rfl⟩
    exact ⟨Nat.lt_succ_iff.mp hi, rfl⟩
  · rintro ⟨hle, rfl⟩
    exact ⟨label, Nat.lt_succ_iff.mpr hle, rfl, rfl⟩

theorem count_printYields (n labelCount i : ℕ) :
    (printYields n labelCount).count (.label i) = if i = labelCount then n else 0 := by
  have hone : (printYield labelCount).count (.label i) = if i = labelCount then 1 else 0 := by
    by_cases h : i = labelCount
    · simp [printYield, h]
    · simp [printYield, h, Ne.symm h]
  rw [printYields, List.count_flatten, List.map_replicate, List.sum_replicate, hone]
  split_ifs <;> simp

/-- The text of a coroutine. -/
theorem consistent_text_iff {n : ℕ} (hpos : 0 < n) :
    Consistent n (printContextDeclAndInit n ++ printYields n 0 ++ printCoroutineFinish n) ↔ n ≤ 1 := by
  have hdispatch : ∀ i, (printContextDeclAndInit n).count (.label i) = 0 := fun i =>
    List.count_eq_zero.mpr (by simp [printContextDeclAndInit])
  have hfinish : ∀ i < n, (printCoroutineFinish n).count (.label i) = 0 := fun i hi =>
    List.count_eq_zero.mpr (by simp [printCoroutineFinish, hi.ne])
  have hcount : ∀ i < n, (printContextDeclAndInit n ++ printYields n 0 ++ printCoroutineFinish n).count (.label i) =
      if i = 0 then n else 0 := by
    intro i hi
    rw [List.count_append, List.count_append, hdispatch, hfinish i hi, count_printYields, Nat.zero_add, Nat.add_zero]
  constructor
  · intro h
    have hzero := h.once 0 hpos
    rw [hcount 0 hpos, if_pos rfl] at hzero
    exact hzero.le
  · intro hle
    refine ⟨fun i hi => ?_, fun state hstate label => ?_, ?_⟩
    · have hi' : i = 0 := by omega
      rw [hcount i hi, if_pos hi']
      omega
    · have hbound : state ≤ n := by
        rcases List.mem_append.mp hstate with hstate | hstate
        · rcases List.mem_append.mp hstate with hstate | hstate
          · simp [printContextDeclAndInit] at hstate
          · have hmem := mem_printYields hstate
            simp only [printYield, List.mem_cons, Piece.storeState.injEq, reduceCtorEq, List.not_mem_nil, or_false] at hmem
            exact hmem ▸ Nat.zero_le n
        · simp only [printCoroutineFinish, List.mem_cons, Piece.storeState.injEq, reduceCtorEq, List.not_mem_nil,
            or_false] at hstate
          exact hstate.le
      have hyields : .caseGoto state label ∉ printYields n 0 := fun h => by
        simpa [printYield] using mem_printYields h
      have hend : .caseGoto state label ∉ printCoroutineFinish n := by simp [printCoroutineFinish]
      rw [List.mem_append, List.mem_append, caseGoto_mem_printContextDeclAndInit]
      constructor
      · rintro ((⟨-, heq⟩ | h) | h)
        · exact heq
        · exact absurd h hyields
        · exact absurd h hend
      · exact fun heq => Or.inl (Or.inl ⟨hbound, heq⟩)
    · have hnone : Own (printContextDeclAndInit n) := own_of_notMem (by simp [printContextDeclAndInit])
      exact (hnone.append (own_printYields n 0)).append (own_printYield n)

/-- The labels of a function are consistent exactly if it has at most one yield: all yields have the label 0. -/
theorem consistent_iff {simplify : Bool} {fuel : ℕ} {body : Stmt} {text : List Piece}
    (h : printFunction simplify fuel body = some text) : Consistent (countYields body) text ↔ countYields body ≤ 1 := by
  rw [printFunction_eq h]
  split_ifs with hpos
  · exact consistent_text_iff hpos
  · have hzero : countYields body = 0 := Nat.eq_zero_of_not_pos hpos
    rw [hzero]
    refine iff_of_true ⟨fun i hi => absurd hi (Nat.not_lt_zero i), fun state hstate => ?_, ?_⟩ (Nat.zero_le 1)
    · cases hstate
    · exact own_of_notMem List.not_mem_nil

/-- A loop that yields. -/
def loopWithYield : Stmt :=
  .while (.literal (.make .bool 1)) (.scope (.yield [] (.literal (.make .float64 0))))

/-- Two loops that yield, one after the other. -/
def twoYields : Stmt := .block [loopWithYield, loopWithYield]

theorem consistent_loopWithYield : ∃ text, printFunction true 2 loopWithYield = some text ∧
    (Consistent (countYields loopWithYield) text ↔ countYields loopWithYield ≤ 1) := by
  obtain ⟨text, htext⟩ : ∃ text, printFunction true 2 loopWithYield = some text := ⟨_, rfl⟩
  exact ⟨text, htext, consistent_iff htext⟩

/-- The label 0 of two yields stands in the text twice. -/
theorem twoYields_not_consistent :
    ¬ ∀ body text, printFunction true 2 body = some text → Consistent (countYields body) text := by
  intro h
  have hone := (h twoYields _ rfl).once 0 (by decide)
  cases hone

end Codegen
end Taco
