import Taco.IR.CopyScopes

/-! What the simplifier knows of the copies along a well-scoped statement: a copy that is still known after it
    was known before it, and neither the copy nor its source was assigned. -/

namespace Taco
namespace IR
open Expr

namespace Simplifier

/-! ### Marks -/

@[simp] theorem markDecl_varsToReplace (P : Simplifier) (v : Var) : (P.markDecl v).varsToReplace = P.varsToReplace := by
  unfold markDecl
  split <;> rfl

@[simp] theorem markDecl_dependencies (P : Simplifier) (v : Var) : (P.markDecl v).dependencies = P.dependencies := by
  unfold markDecl
  split <;> rfl

@[simp] theorem visitVars_varsToReplace (vs : List Var) (P : Simplifier) :
    (P.visitVars vs).varsToReplace = P.varsToReplace := by
  induction vs generalizing P with
  | nil => rfl
  | cons v vs ih => exact (ih _).trans (markDecl_varsToReplace _ _)

@[simp] theorem visitVars_dependencies (vs : List Var) (P : Simplifier) :
    (P.visitVars vs).dependencies = P.dependencies := by
  induction vs generalizing P with
  | nil => rfl
  | cons v vs ih => exact (ih _).trans (markDecl_dependencies _ _)

@[simp] theorem copyOf_visitVars (vs : List Var) (P : Simplifier) : (P.visitVars vs).copyOf = P.copyOf := by
  unfold copyOf
  rw [visitVars_varsToReplace]

theorem visitVars_append (vs ws : List Var) (P : Simplifier) :
    (P.visitVars vs).visitVars ws = P.visitVars (vs ++ ws) := List.foldl_append.symm

theorem visitVar_eq (P : Simplifier) (v : Var) : P.visitVar v = P.visitVars [v] := rfl

theorem visitExpr_some {P P' : Simplifier} {e : Expr} {r : Rewritten} (h : P.visitExpr e = some (r, P')) :
    simplifyWith P.copyOf e = some r ∧ P' = P.visitVars e.vars := by
  obtain ⟨r', hr, h⟩ := Option.map_eq_some_iff.mp h
  obtain ⟨rfl, rfl⟩ := Prod.mk.inj h
  exact ⟨hr, rfl⟩

theorem after_eq {loopDependentVars : List Var} {s : Stmt} {P P' : Simplifier} {r : RewrittenStmt}
    (h : visit loopDependentVars s P = some (r, P')) : after loopDependentVars s P = P' := by
  rw [after, h]
  rfl

/-! ### The known copies -/

/-- The entries of `varsToReplace` are copies of the declared type of variables in scope, which an assignment to their
    source makes invalid. -/
structure Tracks (free Γ : List Var) (P : Simplifier) : Prop where
  unshadowed : P.varsToReplace.Unshadowed
  nonempty : P.varsToReplace.scopes ≠ []
  inScope : ∀ b a, (b, a) ∈ P.varsToReplace.entries → b ∈ Γ ∧ a ∈ free ++ Γ
  typed : ∀ b a, (b, a) ∈ P.varsToReplace.entries → b.type.isInt = true ∧ a.type = b.type
  recorded : ∀ b a, (b, a) ∈ P.varsToReplace.entries → (a, b) ∈ P.dependencies

theorem Tracks.copyOf_eq_some {free Γ : List Var} {P : Simplifier} (h : Tracks free Γ P) {b a : Var} :
    P.copyOf b = some a ↔ (b, a) ∈ P.varsToReplace.entries := ScopedMap.get?_eq_some h.unshadowed

theorem tracks_start (free : List Var) : Tracks free [] start := by
  refine ⟨List.nodup_nil, by simp [start, ScopedMap.empty], ?_, ?_, ?_⟩ <;>
    · intro b a h
      cases h

theorem Tracks.mono {free Γ Δ : List Var} {P : Simplifier} (h : Tracks free Γ P) (hΓ : Γ ⊆ Δ) : Tracks free Δ P :=
  { h with inScope := fun b a hba => ⟨hΓ (h.inScope b a hba).1,
      List.append_subset.mpr ⟨List.subset_append_left _ _, List.subset_append_of_subset_right _ hΓ⟩ (h.inScope b a hba).2⟩ }

/-- The invariant only depends on the copies and on the dependencies. -/
theorem Tracks.congr {free Γ : List Var} {P Q : Simplifier} (h : Tracks free Γ P)
    (hvars : Q.varsToReplace = P.varsToReplace) (hdeps : Q.dependencies = P.dependencies) : Tracks free Γ Q := by
  obtain ⟨h₁, h₂, h₃, h₄, h₅⟩ := h
  rw [← hvars] at h₁ h₂ h₃ h₄ h₅
  rw [← hdeps] at h₅
  exact ⟨h₁, h₂, h₃, h₄, h₅⟩

theorem Tracks.visitVars {free Γ : List Var} {P : Simplifier} (h : Tracks free Γ P) (vs : List Var) :
    Tracks free Γ (P.visitVars vs) := h.congr (visitVars_varsToReplace vs P) (visitVars_dependencies vs P)

/-- Some of the entries. -/
theorem Tracks.shrink {free Γ : List Var} {P Q : Simplifier} (h : Tracks free Γ P)
    (hshrinks : P.varsToReplace.Shrinks Q.varsToReplace) (hdeps : Q.dependencies = P.dependencies) :
    Tracks free Γ Q := by
  have hsub := hshrinks.entries.subset
  refine ⟨hshrinks.unshadowed h.unshadowed, fun hnil => ?_, fun b a hba => h.inScope b a (hsub hba),
    fun b a hba => h.typed b a (hsub hba), fun b a hba => hdeps ▸ h.recorded b a (hsub hba)⟩
  unfold ScopedMap.Shrinks at hshrinks
  rw [hnil] at hshrinks
  cases hscopes : P.varsToReplace.scopes with
  | nil => exact h.nonempty hscopes
  | cons => rw [hscopes] at hshrinks; cases hshrinks

/-- From `P` to `Q`: the outer scopes only lose entries, the innermost one only gains copies among `D`, and the
    entries not among `D` have nothing to do with the assigned variables `A`. -/
structure Grows (D A : List Var) (P Q : Simplifier) : Prop where
  scopes : ∃ top rest top' rest', P.varsToReplace.scopes = top :: rest ∧ Q.varsToReplace.scopes = top' :: rest' ∧
    List.Forall₂ List.Sublist rest' rest ∧ ∀ e ∈ top', e ∈ top ∨ e.1 ∈ D
  untouched : ∀ b a, (b, a) ∈ Q.varsToReplace.entries → b ∉ D → b ∉ A ∧ a ∉ A

theorem Grows.entries {D A : List Var} {P Q : Simplifier} (h : Grows D A P Q) {e : Var × Var}
    (he : e ∈ Q.varsToReplace.entries) : e ∈ P.varsToReplace.entries ∨ e.1 ∈ D := by
  obtain ⟨top, rest, top', rest', hP, hQ, hrest, htop⟩ := h.scopes
  unfold ScopedMap.entries at he ⊢
  rw [hQ, List.flatten_cons, List.mem_append] at he
  rw [hP, List.flatten_cons, List.mem_append]
  rcases he with he | he
  · exact (htop e he).imp_left .inl
  · exact .inl (.inr ((ScopedMap.flatten_sublist hrest).subset he))

theorem Grows.trans {D₁ D₂ A₁ A₂ : List Var} {P Q R : Simplifier} (h₁ : Grows D₁ A₁ P Q) (h₂ : Grows D₂ A₂ Q R) :
    Grows (D₁ ++ D₂) (A₁ ++ A₂) P R := by
  refine ⟨?_, fun b a hba hb => ?_⟩
  · obtain ⟨top, rest, top', rest', hP, hQ, hrest, htop⟩ := h₁.scopes
    obtain ⟨top₂, rest₂, top₂', rest₂', hQ₂, hR, hrest₂, htop₂⟩ := h₂.scopes
    obtain ⟨rfl, rfl⟩ := List.cons.inj (hQ.symm.trans hQ₂)
    refine ⟨top, rest, top₂', rest₂', hP, hR, ScopedMap.forall₂_sublist_trans hrest₂ hrest, fun e he => ?_⟩
    rcases htop₂ e he with he | he
    · exact (htop e he).imp_right (List.mem_append_left _)
    · exact .inr (List.mem_append_right _ he)
  · rw [List.mem_append, not_or] at hb
    obtain ⟨hb₂, ha₂⟩ := h₂.untouched b a hba hb.2
    obtain ⟨hb₁, ha₁⟩ := h₁.untouched b a ((h₂.entries hba).resolve_right hb.2) hb.1
    simp only [List.mem_append, not_or]
    exact ⟨⟨hb₁, hb₂⟩, ha₁, ha₂⟩

/-- A step that only loses entries. -/
theorem grows_of_shrinks {A : List Var} {P Q : Simplifier} (hP : P.varsToReplace.scopes ≠ [])
    (h : P.varsToReplace.Shrinks Q.varsToReplace)
    (huntouched : ∀ b a, (b, a) ∈ Q.varsToReplace.entries → b ∉ A ∧ a ∉ A) : Grows [] A P Q := by
  refine ⟨?_, fun b a hba _ => huntouched b a hba⟩
  unfold ScopedMap.Shrinks at h
  cases hscopes : P.varsToReplace.scopes with
  | nil => exact absurd hscopes hP
  | cons top rest =>
    rw [hscopes] at h
    cases hQ : Q.varsToReplace.scopes with
    | nil => rw [hQ] at h; cases h
    | cons top' rest' =>
      rw [hQ] at h
      obtain ⟨htop, hrest⟩ := List.forall₂_cons.mp h
      exact ⟨top, rest, top', rest', rfl, rfl, hrest, fun e he => .inl (htop.subset he)⟩

theorem grows_of_eq {P Q : Simplifier} (hP : P.varsToReplace.scopes ≠ []) (h : Q.varsToReplace = P.varsToReplace) :
    Grows [] [] P Q := by
  refine grows_of_shrinks hP ?_ fun b a _ => ⟨List.not_mem_nil, List.not_mem_nil⟩
  rw [h]
  exact ScopedMap.Shrinks.refl _

theorem Tracks.grows_visitVars {free Γ : List Var} {P : Simplifier} (h : Tracks free Γ P) (vs : List Var) :
    Grows [] [] P (P.visitVars vs) := grows_of_eq h.nonempty (visitVars_varsToReplace vs P)

/-! ### Declarations and assignments -/

theorem foldl_remove_spec (vs : List Var) (m : ScopedMap Var Var) (hm : m.Unshadowed) :
    m.Shrinks (vs.foldl (fun m v => if m.contains v then m.remove v else m) m) ∧
      ∀ v ∈ vs, v ∉ (vs.foldl (fun m v => if m.contains v then m.remove v else m) m).entries.map Prod.fst := by
  induction vs generalizing m with
  | nil => exact ⟨ScopedMap.Shrinks.refl m, fun v hv => by cases hv⟩
  | cons v vs ih =>
    have hstep : m.Shrinks (if m.contains v then m.remove v else m) ∧
        v ∉ (if m.contains v then m.remove v else m).entries.map Prod.fst := by
      split_ifs with hv
      · exact ⟨ScopedMap.shrinks_remove m v, ScopedMap.not_mem_remove hm v⟩
      · exact ⟨ScopedMap.Shrinks.refl m, fun hmem => hv (ScopedMap.contains_iff.mpr hmem)⟩
    rw [List.foldl_cons]
    obtain ⟨hshrinks, hremoved⟩ := ih _ (hstep.1.unshadowed hm)
    refine ⟨hstep.1.trans hshrinks, fun w hw => ?_⟩
    rcases List.mem_cons.mp hw with rfl | hw
    · exact fun hmem => hstep.2 ((hshrinks.entries.map Prod.fst).subset hmem)
    · exact hremoved w hw

/-- Invalidation removes the variables and their copies. -/
theorem invalidate_spec {dependencies : List (Var × Var)} : ∀ {n : ℕ} {vs : List Var} {m m' : ScopedMap Var Var},
    invalidate dependencies n vs m = some m' → m.Unshadowed →
    m.Shrinks m' ∧ (∀ v ∈ vs, v ∉ m'.entries.map Prod.fst) ∧
      ∀ v ∈ vs, ∀ b, (v, b) ∈ dependencies → b ∉ m'.entries.map Prod.fst
  | n, [], m, m', h, _ => by
    have hm' : m = m' := by cases n <;> exact Option.some.inj h
    subst hm'
    exact ⟨ScopedMap.Shrinks.refl m, fun v hv => absurd hv List.not_mem_nil, fun v hv => absurd hv List.not_mem_nil⟩
  | 0, v :: vs, m, m', h, _ => by cases h
  | n + 1, v :: vs, m, m', h, hm => by
    rw [invalidate] at h
    obtain ⟨hshrinks, hremoved⟩ := foldl_remove_spec (v :: vs) m hm
    obtain ⟨hshrinks', hremoved', -⟩ := invalidate_spec h (hshrinks.unshadowed hm)
    refine ⟨hshrinks.trans hshrinks', fun w hw hmem => ?_, fun w hw b hb => ?_⟩
    · exact hremoved w hw ((hshrinks'.entries.map Prod.fst).subset hmem)
    · refine hremoved' b (List.mem_flatMap.mpr ⟨w, hw, List.mem_map.mpr ⟨(w, b), ?_, rfl⟩⟩)
      exact List.mem_filter.mpr ⟨hb, decide_eq_true rfl⟩

theorem Tracks.assign {free Γ : List Var} {P Q : Simplifier} (h : Tracks free Γ P) {lhs : Var}
    (hQ : P.assign lhs = some Q) : Tracks free Γ Q ∧ Grows [] [lhs] P Q := by
  unfold Simplifier.assign at hQ
  simp only [markDecl_varsToReplace, markDecl_dependencies] at hQ
  split_ifs at hQ with hint
  · obtain ⟨m, hm, hQ⟩ := Option.bind_eq_some_iff.mp hQ
    obtain rfl := Option.some.inj hQ
    obtain ⟨hshrinks, hremoved, hcopies⟩ := invalidate_spec hm h.unshadowed
    refine ⟨h.shrink hshrinks rfl, grows_of_shrinks h.nonempty hshrinks fun b a hba => ?_⟩
    have hb : b ∈ m.entries.map Prod.fst := List.mem_map_of_mem hba
    have hrecorded := h.recorded b a (hshrinks.entries.subset hba)
    simp only [List.mem_singleton]
    refine ⟨fun hbl => hremoved lhs List.mem_cons_self (hbl ▸ hb), fun hal => ?_⟩
    exact hcopies lhs List.mem_cons_self b (hal ▸ hrecorded) hb
  · obtain rfl := Option.some.inj hQ
    refine ⟨h.congr (markDecl_varsToReplace P lhs) (markDecl_dependencies P lhs),
      grows_of_shrinks h.nonempty ?_ fun b a hba => ?_⟩
    · rw [markDecl_varsToReplace]
      exact ScopedMap.Shrinks.refl _
    · rw [markDecl_varsToReplace] at hba
      obtain ⟨hb, ha⟩ := h.typed b a hba
      simp only [List.mem_singleton]
      refine ⟨fun hbl => hint (hbl ▸ hb), fun hal => hint ?_⟩
      rw [← hal, ha]
      exact hb

/-- A new copy enters the innermost scope. -/
theorem Tracks.declare {free Γ loopDependentVars : List Var} {P : Simplifier} (h : Tracks free Γ P) {v : Var}
    {rhs : Expr} (hv : v ∉ Γ) (hrhs : ∀ a, rhs = var a → v.type.isInt = true → a ∈ free ++ Γ ∧ a.type = v.type) :
    Tracks free (v :: Γ) (P.declare loopDependentVars v rhs) ∧
      Grows [v] [] P (P.declare loopDependentVars v rhs) := by
  obtain ⟨top, rest, hscopes⟩ := List.exists_cons_of_ne_nil h.nonempty
  have hmono : Tracks free (v :: Γ) P := h.mono (List.subset_cons_self v Γ)
  have hsame : ∀ Q : Simplifier, Q.varsToReplace = P.varsToReplace → Q.dependencies = P.dependencies →
      Tracks free (v :: Γ) Q ∧ Grows [v] [] P Q := by
    intro Q hvars hdeps
    refine ⟨hmono.congr hvars hdeps, ⟨top, rest, top, rest, hscopes, hvars ▸ hscopes,
      List.forall₂_same.mpr fun _ _ => List.Sublist.refl _, fun e he => .inl he⟩, fun _ _ _ _ => ?_⟩
    exact ⟨List.not_mem_nil, List.not_mem_nil⟩
  unfold Simplifier.declare
  split
  · rename_i a
    split_ifs with hcond
    · obtain ⟨hint, -⟩ := Bool.and_eq_true_iff.mp hcond
      obtain ⟨ha, htype⟩ := hrhs a rfl hint
      have hkey : v ∉ P.varsToReplace.entries.map Prod.fst := fun hmem => by
        obtain ⟨⟨b, c⟩, hbc, rfl⟩ := List.mem_map.mp hmem
        exact hv (h.inScope b c hbc).1
      have htop : (top.lookup v).isSome = false := by
        rw [Option.isSome_eq_false_iff, Option.isNone_iff_eq_none, ScopedMap.lookup_eq_none]
        intro hmem
        refine hkey ?_
        unfold ScopedMap.entries
        rw [hscopes, List.flatten_cons, List.map_append]
        exact List.mem_append_left _ hmem
      have hinsert : P.varsToReplace.insert v a = ⟨((v, a) :: top) :: rest⟩ := by
        unfold ScopedMap.insert
        rw [hscopes]
        simp [htop]
      have hentries : (P.varsToReplace.insert v a).entries = (v, a) :: P.varsToReplace.entries := by
        rw [hinsert]
        unfold ScopedMap.entries
        rw [hscopes]
        rfl
      refine ⟨⟨?_, ?_, ?_, ?_, ?_⟩, ⟨⟨top, rest, (v, a) :: top, rest, hscopes, ?_,
        List.forall₂_same.mpr fun _ _ => List.Sublist.refl _, ?_⟩, fun _ _ _ _ => ⟨List.not_mem_nil, List.not_mem_nil⟩⟩⟩
      · show (List.map Prod.fst (P.varsToReplace.insert v a).entries).Nodup
        rw [hentries]
        exact List.nodup_cons.mpr ⟨hkey, h.unshadowed⟩
      · show (P.varsToReplace.insert v a).scopes ≠ []
        rw [hinsert]
        exact List.cons_ne_nil _ _
      · intro b c hbc
        rw [show (P.varsToReplace.insert v a).entries = _ from hentries] at hbc
        rcases List.mem_cons.mp hbc with heq | hbc
        · obtain ⟨rfl, rfl⟩ := Prod.mk.inj heq
          refine ⟨List.mem_cons_self, ?_⟩
          rcases List.mem_append.mp ha with ha | ha
          · exact List.mem_append_left _ ha
          · exact List.mem_append_right _ (List.mem_cons_of_mem _ ha)
        · exact hmono.inScope b c hbc
      · intro b c hbc
        rw [show (P.varsToReplace.insert v a).entries = _ from hentries] at hbc
        rcases List.mem_cons.mp hbc with heq | hbc
        · obtain ⟨rfl, rfl⟩ := Prod.mk.inj heq
          exact ⟨hint, htype⟩
        · exact h.typed b c hbc
      · intro b c hbc
        rw [show (P.varsToReplace.insert v a).entries = _ from hentries] at hbc
        rcases List.mem_cons.mp hbc with heq | hbc
        · obtain ⟨rfl, rfl⟩ := Prod.mk.inj heq
          exact List.mem_cons_self
        · exact List.mem_cons_of_mem _ (h.recorded b c hbc)
      · exact congrArg ScopedMap.scopes hinsert
      · intro e he
        rcases List.mem_cons.mp he with rfl | he
        · exact .inr List.mem_cons_self
        · exact .inl he
    · exact hsame _ rfl rfl
  · exact hsame _ rfl rfl

end Simplifier

end IR
end Taco
