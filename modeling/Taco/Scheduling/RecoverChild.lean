import Taco.Scheduling.Ancestors

/-! Recovering derived variables from their ancestors: each step of a derivation path computes a child from its parent
    and from the other child. -/

namespace Taco
namespace Scheduling

/-- Values of variables as the emitted code computes them. -/
abbrev IntEnv := IndexVar → ℤ

def Expr.evalInt (env : IntEnv) : Expr → ℤ
  | literal value | property value => value
  | var v => env v
  | load arr loc => arr (loc.evalInt env).toNat
  | add a b => a.evalInt env + b.evalInt env
  | sub a b => a.evalInt env - b.evalInt env
  | mul a b => a.evalInt env * b.evalInt env
  | div a b => (a.evalInt env).tdiv (b.evalInt env)
  | rem a b => (a.evalInt env).tmod (b.evalInt env)
  | min a b => Min.min (a.evalInt env) (b.evalInt env)

/-- A declaration of a variable, or an assignment to it. -/
structure ChildStep where
  emitVarDecl : Bool
  var : IndexVar
  value : Expr

def SplitRelNode.recoverChild (rel : SplitRelNode) (indexVar : IndexVar) (variableNames : IndexVar → Expr)
    (emitVarDecl : Bool) : ChildStep :=
  if indexVar = rel.outerVar then
    ⟨emitVarDecl, rel.outerVar, .sub (variableNames rel.parentVar) (variableNames rel.innerVar)⟩
  else
    ⟨emitVarDecl, rel.innerVar, .sub (variableNames rel.parentVar)
      (.mul (variableNames rel.outerVar) (.literal rel.splitFactor))⟩

/-- The variable is declared in any case. -/
def BoundRelNode.recoverChild (rel : BoundRelNode) (variableNames : IndexVar → Expr) : ChildStep :=
  ⟨true, rel.boundVar, variableNames rel.parentVar⟩

/-- Divides are not supported; the search for a position is left out. -/
def IndexVarRel.recoverChild (indexVar : IndexVar) (variableNames : IndexVar → Expr) (emitVarDecl : Bool) :
    IndexVarRel → Option ChildStep
  | split rel => some (rel.recoverChild indexVar variableNames emitVarDecl)
  | bound rel => some (rel.recoverChild variableNames)
  | divide _ | pos _ => none

namespace ProvenanceGraph

variable (g : ProvenanceGraph)

/-- Nothing to recover of an underived variable. -/
def recoverChild (indexVar : IndexVar) (variableNames : IndexVar → Expr) (emitVarDecl : Bool) :
    Option (List ChildStep) :=
  match g.parentRel? indexVar with
  | none => some []
  | some rel => (rel.recoverChild indexVar variableNames emitVarDecl).map fun step => [step]

def codeToRecoverDerivedIndexVar (fuel : ℕ) (underived indexVar : IndexVar) (variableNames : IndexVar → Expr)
    (emitVarDecl : Bool) : Option (List ChildStep) :=
  if underived = indexVar then some []
  else if g.getUnderivedAncestor fuel indexVar = underived then
    (((g.derivationPath fuel underived indexVar).filter (· ≠ underived)).mapM fun varToRecover =>
      g.recoverChild varToRecover variableNames emitVarDecl).map List.flatten
  else none

/-- The variables of a path are recovered from the one below, from the last one on; the bounds are those of the
    variables. -/
def recoverBack (iterBounds coordBounds : IndexVar → Bounds) : List IndexVar → IntEnv → Option IntEnv
  | v :: c :: path, env => do
    let env ← recoverBack iterBounds coordBounds (c :: path) env
    let rel ← g.childRel? v
    some (Function.update env v ((rel.recoverVariable Expr.var (iterBounds v) (coordBounds v)).evalInt env))
  | _, env => some env

end ProvenanceGraph

/-- The steps one after the other. -/
def runSteps (steps : List ChildStep) (env : IntEnv) : IntEnv :=
  steps.foldl (fun env step => Function.update env step.var (step.value.evalInt env)) env

/-! ### Consistent values -/

/-- Splits with positive factors, and bounds. -/
def IndexVarRel.Splits : IndexVarRel → Prop
  | split rel => 0 < rel.splitFactor
  | bound _ => True
  | divide _ | pos _ => False

/-- The values of the parent and the children belong together. -/
def IndexVarRel.Consistent (val : IntEnv) : IndexVarRel → Prop
  | split rel => val rel.parentVar = val rel.outerVar * rel.splitFactor + val rel.innerVar
  | bound rel => val rel.parentVar = val rel.boundVar
  | divide _ | pos _ => True

/-- The relations that introduce the variables of a path. -/
def OnPath (g : ProvenanceGraph) (path : List IndexVar) (P : IndexVar → IndexVarRel → Prop) : Prop :=
  ∀ c ∈ path, ∀ rel, g.parentRel? c = some rel → P c rel

/-- The other children are defined. -/
def SiblingsAgree (g : ProvenanceGraph) (path : List IndexVar) (val env : IntEnv) : Prop :=
  OnPath g path fun c rel => ∀ s ∈ rel.getChildren, s ≠ c → env s = val s

/-- The outer variable of a split is recovered, which is not divided by the factor. -/
def OuterExact (g : ProvenanceGraph) (path : List IndexVar) (val : IntEnv) : Prop :=
  OnPath g path fun c rel => ∀ split, rel = .split split → c = split.outerVar → split.splitFactor = 1 ∨ val c = 0

/-- Each variable of the path gets its value, and from these the first one is recovered. -/
def Recovers (g : ProvenanceGraph) (fuel : ℕ) (underived indexVar : IndexVar) (emitVarDecl : Bool)
    (iterBounds coordBounds : IndexVar → Bounds) (val env : IntEnv) : Prop :=
  ∃ steps, g.codeToRecoverDerivedIndexVar fuel underived indexVar Expr.var emitVarDecl = some steps ∧
    (∀ c ∈ g.derivationPath fuel underived indexVar, runSteps steps env c = val c) ∧
    ∃ back, g.recoverBack iterBounds coordBounds (g.derivationPath fuel underived indexVar) (runSteps steps env) = some back ∧
      back underived = val underived

/-! ### Paths -/

/-- The labels from the root of the tree down to the leaf `v`. -/
def Derivation.path (v : IndexVar) : Derivation → List IndexVar
  | leaf w => [w]
  | unary rel t => rel.parentVar :: t.path v
  | binary rel o i => rel.parentVar :: if v ∈ o.leaves then o.path v else i.path v

/-- Each variable of the path is a child of the one before. -/
inductive Descends (g : ProvenanceGraph) : List IndexVar → Prop where
  | single (v : IndexVar) : Descends g [v]
  | cons {rel : IndexVarRel} {c : IndexVar} {path : List IndexVar} (hchild : g.childRel? rel.parentVar = some rel)
      (hparent : g.parentRel? c = some rel) (hmem : c ∈ rel.getChildren) (hpath : Descends g (c :: path)) :
      Descends g (rel.parentVar :: c :: path)

section Paths

variable {g : ProvenanceGraph} {v : IndexVar} {fuel : ℕ}

theorem Derivation.path_eq_cons (v : IndexVar) (t : Derivation) : ∃ path, t.path v = t.label :: path := by
  cases t
  · exact ⟨[], rfl⟩
  · exact ⟨_, rfl⟩
  · exact ⟨_, rfl⟩

theorem Derivation.path_sublist (v : IndexVar) : ∀ t : Derivation, (t.path v).Sublist t.labels
  | leaf _ => List.Sublist.refl _
  | unary _ t => (t.path_sublist v).cons_cons _
  | binary _ o i => by
    refine List.Sublist.cons_cons _ ?_
    split_ifs
    · exact (o.path_sublist v).trans (List.sublist_append_left _ _)
    · exact (i.path_sublist v).trans (List.sublist_append_right _ _)

theorem ProvenanceGraph.derivationPath_self (g : ProvenanceGraph) : g.derivationPath fuel v v = [v] := by
  cases fuel <;> exact if_pos rfl

theorem derivationPath_succ (fuel : ℕ) {ancestor : IndexVar} (hne : ancestor ≠ v) :
    g.derivationPath (fuel + 1) ancestor v =
      match (g.getChildren ancestor).findSome? fun child =>
          match g.derivationPath fuel child v with
          | [] => none
          | path => some path with
      | some path => ancestor :: path
      | none => [] := if_neg hne

/-- No path leads to a variable outside the tree. -/
theorem derivationPath_nil : ∀ {t : Derivation} {fuel : ℕ}, Represents g t → v ∉ t.labels →
    g.derivationPath fuel t.label v = []
  | t, 0, _, hv => if_neg fun h : t.label = v => hv (h ▸ t.label_mem_labels)
  | .leaf w, fuel + 1, h, hv => by
    have hchild : g.childRel? w = none := h
    have hne : w ≠ v := fun h => hv (List.mem_singleton.mpr h.symm)
    rw [Derivation.label, derivationPath_succ fuel hne, ProvenanceGraph.getChildren, hchild]
    rfl
  | .unary rel t, fuel + 1, ⟨hc, hch, _, ht⟩, hv => by
    obtain ⟨hne, hvt⟩ := not_or.mp fun h => hv (List.mem_cons.mpr h)
    rw [Derivation.label, derivationPath_succ fuel (Ne.symm hne), getChildren_eq hc, hch, List.findSome?_cons,
      derivationPath_nil ht hvt]
    rfl
  | .binary rel o i, fuel + 1, ⟨hc, hch, _, _, ho, hi⟩, hv => by
    obtain ⟨hne, hvoi⟩ := not_or.mp fun h => hv (List.mem_cons.mpr h)
    obtain ⟨hvo, hvi⟩ := not_or.mp fun h => hvoi (List.mem_append.mpr h)
    rw [Derivation.label, derivationPath_succ fuel (Ne.symm hne), getChildren_eq hc, hch, List.findSome?_cons,
      derivationPath_nil ho hvo, List.findSome?_cons, derivationPath_nil hi hvi]
    rfl

theorem derivationPath_eq : ∀ {t : Derivation} {fuel : ℕ}, Represents g t → t.labels.Nodup → t.height ≤ fuel →
    v ∈ t.leaves → g.derivationPath fuel t.label v = t.path v
  | .leaf w, fuel, _, _, _, hv => by
    obtain rfl := List.mem_singleton.mp hv
    exact g.derivationPath_self
  | .unary rel t, fuel + 1, ⟨hc, hch, _, ht⟩, hnd, hf, hv => by
    have hv : v ∈ t.leaves := hv
    obtain ⟨hvt, hndt⟩ := List.nodup_cons.mp hnd
    have hne : rel.parentVar ≠ v := fun h => hvt (h ▸ t.leaves_subset_labels hv)
    obtain ⟨path, hpath⟩ := t.path_eq_cons v
    rw [Derivation.label, derivationPath_succ fuel hne, getChildren_eq hc, hch, List.findSome?_cons,
      derivationPath_eq ht hndt (Nat.le_of_succ_le_succ hf) hv, Derivation.path, hpath]
  | .binary rel o i, fuel + 1, ⟨hc, hch, _, _, ho, hi⟩, hnd, hf, hv => by
    obtain ⟨hpo, hpi, hndo, hndi, hdisj⟩ := Derivation.nodup_binary hnd
    rw [Derivation.height, Nat.add_le_add_iff_right, Nat.max_le] at hf
    rcases List.mem_append.mp hv with hvo | hvi
    · have hne : rel.parentVar ≠ v := fun h => hpo (h ▸ o.leaves_subset_labels hvo)
      obtain ⟨path, hpath⟩ := o.path_eq_cons v
      rw [Derivation.label, derivationPath_succ fuel hne, getChildren_eq hc, hch, List.findSome?_cons,
        derivationPath_eq ho hndo hf.1 hvo, Derivation.path, if_pos hvo, hpath]
    · have hne : rel.parentVar ≠ v := fun h => hpi (h ▸ i.leaves_subset_labels hvi)
      have hvo : v ∉ o.labels := fun h => hdisj v h (i.leaves_subset_labels hvi)
      obtain ⟨path, hpath⟩ := i.path_eq_cons v
      rw [Derivation.label, derivationPath_succ fuel hne, getChildren_eq hc, hch, List.findSome?_cons,
        derivationPath_nil ho hvo, List.findSome?_cons, derivationPath_eq hi hndi hf.2 hvi, Derivation.path,
        if_neg fun h => hvo (o.leaves_subset_labels h), hpath]

theorem descends_path : ∀ {t : Derivation}, Represents g t → v ∈ t.leaves → Descends g (t.path v)
  | .leaf w, _, _ => .single w
  | .unary rel t, ⟨hc, hch, hp, ht⟩, hv => by
    have hdescends := descends_path ht hv
    obtain ⟨path, hpath⟩ := t.path_eq_cons v
    rw [hpath] at hdescends
    rw [Derivation.path, hpath]
    exact .cons hc hp (hch ▸ List.mem_singleton_self _) hdescends
  | .binary rel o i, ⟨hc, hch, hpo, hpi, ho, hi⟩, hv => by
    rw [Derivation.path]
    split_ifs with hvo
    · have hdescends := descends_path ho hvo
      obtain ⟨path, hpath⟩ := o.path_eq_cons v
      rw [hpath] at hdescends ⊢
      exact .cons hc hpo (hch ▸ List.mem_cons_self) hdescends
    · have hdescends := descends_path hi ((List.mem_append.mp hv).resolve_left hvo)
      obtain ⟨path, hpath⟩ := i.path_eq_cons v
      rw [hpath] at hdescends ⊢
      exact .cons hc hpi (hch ▸ List.mem_cons_of_mem _ (List.mem_singleton_self _)) hdescends

/-- The children of a relation on a path are different, and the others lie off the path. -/
theorem children_spec {c : IndexVar} {r : IndexVarRel} : ∀ {t : Derivation}, Represents g t → t.labels.Nodup →
    v ∈ t.leaves → c ∈ (t.path v).tail → g.parentRel? c = some r →
      r.getChildren.Nodup ∧ ∀ s ∈ r.getChildren, s ≠ c → s ∈ t.labels ∧ s ∉ t.path v
  | .leaf w, _, _, _, hc, _ => by cases hc
  | .unary rel t, ⟨_, hch, hp, ht⟩, hnd, hv, hc, hr => by
    obtain ⟨hvt, hndt⟩ := List.nodup_cons.mp hnd
    obtain ⟨path, hpath⟩ := t.path_eq_cons v
    have hc : c ∈ t.path v := hc
    rw [hpath] at hc
    rcases List.mem_cons.mp hc with rfl | hc
    · obtain rfl : rel = r := Option.some.inj (hp.symm.trans hr)
      rw [hch]
      exact ⟨List.nodup_singleton _, fun s hs hne => absurd (List.mem_singleton.mp hs) hne⟩
    · obtain ⟨hnodup, hothers⟩ := children_spec ht hndt hv (hpath ▸ hc) hr
      refine ⟨hnodup, fun s hs hne => ?_⟩
      obtain ⟨hmem, hnot⟩ := hothers s hs hne
      refine ⟨List.mem_cons_of_mem _ hmem, fun h => ?_⟩
      rcases List.mem_cons.mp h with rfl | h
      · exact hvt hmem
      · exact hnot h
  | .binary rel o i, ⟨_, hch, hpo, hpi, ho, hi⟩, hnd, hv, hc, hr => by
    obtain ⟨hpro, hpri, hndo, hndi, hdisj⟩ := Derivation.nodup_binary hnd
    have hchildren : rel.getChildren.Nodup := by
      rw [hch, List.nodup_cons, List.mem_singleton]
      exact ⟨fun h => hdisj _ o.label_mem_labels (h ▸ i.label_mem_labels), List.nodup_singleton _⟩
    rw [Derivation.path] at hc ⊢
    rw [List.tail_cons] at hc
    split_ifs at hc ⊢ with hvo
    · obtain ⟨path, hpath⟩ := o.path_eq_cons v
      rw [hpath] at hc
      rcases List.mem_cons.mp hc with rfl | hc
      · obtain rfl : rel = r := Option.some.inj (hpo.symm.trans hr)
        refine ⟨hchildren, fun s hs hne => ?_⟩
        rw [hch] at hs
        obtain rfl := List.mem_singleton.mp ((List.mem_cons.mp hs).resolve_left hne)
        refine ⟨List.mem_cons_of_mem _ (List.mem_append_right _ i.label_mem_labels), fun h => ?_⟩
        rcases List.mem_cons.mp h with h | h
        · exact hpri (h ▸ i.label_mem_labels)
        · exact hdisj _ ((o.path_sublist v).subset h) i.label_mem_labels
      · obtain ⟨hnodup, hothers⟩ := children_spec ho hndo hvo (hpath ▸ hc) hr
        refine ⟨hnodup, fun s hs hne => ?_⟩
        obtain ⟨hmem, hnot⟩ := hothers s hs hne
        refine ⟨List.mem_cons_of_mem _ (List.mem_append_left _ hmem), fun h => ?_⟩
        rcases List.mem_cons.mp h with rfl | h
        · exact hpro hmem
        · exact hnot h
    · have hvi := (List.mem_append.mp hv).resolve_left hvo
      obtain ⟨path, hpath⟩ := i.path_eq_cons v
      rw [hpath] at hc
      rcases List.mem_cons.mp hc with rfl | hc
      · obtain rfl : rel = r := Option.some.inj (hpi.symm.trans hr)
        refine ⟨hchildren, fun s hs hne => ?_⟩
        rw [hch, List.mem_cons, List.mem_singleton] at hs
        obtain rfl := hs.resolve_right hne
        refine ⟨List.mem_cons_of_mem _ (List.mem_append_left _ o.label_mem_labels), fun h => ?_⟩
        rcases List.mem_cons.mp h with h | h
        · exact hpro (h ▸ o.label_mem_labels)
        · exact hdisj _ o.label_mem_labels ((i.path_sublist v).subset h)
      · obtain ⟨hnodup, hothers⟩ := children_spec hi hndi hvi (hpath ▸ hc) hr
        refine ⟨hnodup, fun s hs hne => ?_⟩
        obtain ⟨hmem, hnot⟩ := hothers s hs hne
        refine ⟨List.mem_cons_of_mem _ (List.mem_append_right _ hmem), fun h => ?_⟩
        rcases List.mem_cons.mp h with rfl | h
        · exact hpri hmem
        · exact hnot h

end Paths

/-! ### Running the steps -/

section Steps

variable {g : ProvenanceGraph} {path : List IndexVar} {val env : IntEnv} {emitVarDecl : Bool}

/-- The steps along a path, whose relations are splits and bounds. -/
def stepsAlong (g : ProvenanceGraph) (emitVarDecl : Bool) (path : List IndexVar) : Option (List ChildStep) :=
  (path.mapM fun varToRecover => g.recoverChild varToRecover Expr.var emitVarDecl).map List.flatten

theorem stepsAlong_cons {c : IndexVar} {rel : IndexVarRel} {step : ChildStep} (hrel : g.parentRel? c = some rel)
    (hstep : rel.recoverChild c Expr.var emitVarDecl = some step) :
    stepsAlong g emitVarDecl (c :: path) = (stepsAlong g emitVarDecl path).map (step :: ·) := by
  rw [stepsAlong, List.mapM_cons, ProvenanceGraph.recoverChild, hrel]
  dsimp only
  rw [hstep, stepsAlong]
  cases path.mapM fun varToRecover => g.recoverChild varToRecover Expr.var emitVarDecl <;> rfl

/-- A step computes the value of the variable unless this had to be divided by the factor. -/
theorem recoverChild_spec (emitVarDecl : Bool) {c : IndexVar} {rel : IndexVarRel} (hkind : rel.Splits) (hc : c ∈ rel.getChildren)
    (hnodup : rel.getChildren.Nodup) (hconsistent : rel.Consistent val) (hparent : env rel.parentVar = val rel.parentVar)
    (hsiblings : ∀ s ∈ rel.getChildren, s ≠ c → env s = val s) :
    ∃ step, rel.recoverChild c Expr.var emitVarDecl = some step ∧ step.var = c ∧
      (step.value.evalInt env = val c ↔
        ∀ split, rel = .split split → c = split.outerVar → split.splitFactor = 1 ∨ val c = 0) := by
  cases rel with
  | split rel =>
    have hconsistent : val rel.parentVar = val rel.outerVar * rel.splitFactor + val rel.innerVar := hconsistent
    have hparent : env rel.parentVar = val rel.parentVar := hparent
    have hne : rel.outerVar ≠ rel.innerVar := by simpa [IndexVarRel.getChildren] using hnodup
    refine ⟨_, rfl, ?_⟩
    rcases List.mem_cons.mp hc with rfl | hc
    · have hinner : env rel.innerVar = val rel.innerVar :=
        hsiblings _ (List.mem_cons_of_mem _ (List.mem_singleton_self _)) hne.symm
      have hvalue : val rel.outerVar * rel.splitFactor = val rel.outerVar ↔ rel.splitFactor = 1 ∨ val rel.outerVar = 0 := by
        rw [mul_right_eq_self₀, Nat.cast_eq_one]
      rw [SplitRelNode.recoverChild, if_pos rfl]
      refine ⟨rfl, ?_⟩
      simp only [Expr.evalInt, hparent, hinner, hconsistent, add_sub_cancel_right, hvalue]
      exact ⟨fun h split heq _ => IndexVarRel.split.inj heq ▸ h, fun h => h rel rfl rfl⟩
    · obtain rfl := List.mem_singleton.mp hc
      have houter : env rel.outerVar = val rel.outerVar := hsiblings _ List.mem_cons_self hne
      rw [SplitRelNode.recoverChild, if_neg hne.symm]
      refine ⟨rfl, ?_⟩
      simp only [Expr.evalInt, hparent, houter, hconsistent, add_sub_cancel_left, true_iff]
      rintro split heq hinner
      obtain rfl := IndexVarRel.split.inj heq
      exact absurd hinner.symm hne
  | bound rel =>
    obtain rfl := List.mem_singleton.mp hc
    refine ⟨_, rfl, rfl, iff_of_true (hparent.trans hconsistent) ?_⟩
    rintro split heq
    cases heq
  | divide rel => exact hkind.elim
  | pos rel => exact hkind.elim

theorem runSteps_cons (step : ChildStep) (steps : List ChildStep) (env : IntEnv) :
    runSteps (step :: steps) env = runSteps steps (Function.update env step.var (step.value.evalInt env)) := rfl

theorem runSteps_frame {v : IndexVar} : ∀ {steps : List ChildStep} {env : IntEnv}, v ∉ steps.map ChildStep.var →
    runSteps steps env v = env v
  | [], _, _ => rfl
  | step :: steps, env, h => by
    obtain ⟨hne, hv⟩ := not_or.mp fun hv => h (List.mem_cons.mpr hv)
    rw [runSteps_cons, runSteps_frame hv, Function.update_of_ne hne]

/-- What the relations on a path are, with values that belong together. -/
def Tiled (g : ProvenanceGraph) (path : List IndexVar) (val : IntEnv) : Prop :=
  OnPath g path fun _ rel => rel.Splits ∧ rel.getChildren.Nodup ∧ rel.Consistent val

/-- The other children are not computed. -/
def Apart (g : ProvenanceGraph) (path whole : List IndexVar) : Prop :=
  OnPath g path fun c rel => ∀ s ∈ rel.getChildren, s ≠ c → s ∉ whole

theorem onPath_cons {P : IndexVar → IndexVarRel → Prop} {c : IndexVar} {rel : IndexVarRel} (h : g.parentRel? c = some rel) :
    OnPath g (c :: path) P ↔ P c rel ∧ OnPath g path P := by
  unfold OnPath
  rw [List.forall_mem_cons]
  refine and_congr_left fun _ => ⟨fun hc => hc rel h, fun hc r hr => ?_⟩
  obtain rfl : rel = r := Option.some.inj (h.symm.trans hr)
  exact hc

theorem onPath_nil {P : IndexVar → IndexVarRel → Prop} : OnPath g [] P := fun _ hc => absurd hc List.not_mem_nil

theorem OnPath.imp {P Q : IndexVar → IndexVarRel → Prop} (h : OnPath g path P)
    (hpq : ∀ c ∈ path, ∀ rel, g.parentRel? c = some rel → P c rel → Q c rel) : OnPath g path Q := fun c hc rel hrel =>
  hpq c hc rel hrel (h c hc rel hrel)

theorem exists_stepsAlong (emitVarDecl : Bool) {p : IndexVar} (hpath : Descends g (p :: path)) (htiled : Tiled g path val) :
    ∃ steps, stepsAlong g emitVarDecl path = some steps ∧ steps.map ChildStep.var = path := by
  induction path generalizing p with
  | nil => exact ⟨[], rfl, rfl⟩
  | cons c path ih =>
    cases hpath with
    | @cons rel _ _ _ hparent hmem hpath =>
      obtain ⟨⟨hkind, hnodup, hconsistent⟩, htiled⟩ := (onPath_cons hparent).mp htiled
      obtain ⟨step, hstep, hvar, -⟩ := recoverChild_spec emitVarDecl hkind hmem hnodup hconsistent rfl
        fun _ _ _ => rfl
      obtain ⟨steps, hsteps, hvars⟩ := ih hpath htiled
      exact ⟨step :: steps, by rw [stepsAlong_cons hparent hstep, hsteps, Option.map_some],
        by rw [List.map_cons, hvar, hvars]⟩

/-- The steps compute the values unless an outer variable had to be divided by its factor. -/
theorem runSteps_path_iff {p : IndexVar} {steps : List ChildStep} (hpath : Descends g (p :: path))
    (hnd : (p :: path).Nodup) (htiled : Tiled g path val) (hapart : Apart g path (p :: path)) (hp : env p = val p)
    (hsiblings : SiblingsAgree g path val env) (hsteps : stepsAlong g emitVarDecl path = some steps) :
    (∀ c ∈ path, runSteps steps env c = val c) ↔ OuterExact g path val := by
  induction path generalizing p env steps with
  | nil => exact iff_of_true (fun _ hc => absurd hc List.not_mem_nil) onPath_nil
  | cons c path ih =>
    cases hpath with
    | @cons rel _ _ _ hparent hmem hpath =>
      obtain ⟨⟨hkind, hnodup, hconsistent⟩, htiled'⟩ := (onPath_cons hparent).mp htiled
      obtain ⟨-, hapart'⟩ := (onPath_cons hparent).mp hapart
      obtain ⟨hsibling, hsiblings'⟩ := (onPath_cons hparent).mp hsiblings
      obtain ⟨step, hstep, rfl, hexact⟩ := recoverChild_spec emitVarDecl hkind hmem hnodup hconsistent hp
        hsibling
      obtain ⟨steps', hsteps', hvars⟩ := exists_stepsAlong emitVarDecl hpath htiled'
      rw [stepsAlong_cons hparent hstep, hsteps', Option.map_some, Option.some.injEq] at hsteps
      subst hsteps
      obtain ⟨hpc, hndc⟩ := List.nodup_cons.mp hnd
      have hc : step.var ∉ steps'.map ChildStep.var := hvars ▸ (List.nodup_cons.mp hndc).1
      rw [List.forall_mem_cons, runSteps_cons, runSteps_frame hc, Function.update_self, hexact, OuterExact,
        onPath_cons hparent]
      refine and_congr_right fun hvalue => ?_
      refine ih hpath hndc htiled' ?_ ?_ ?_ hsteps'
      · exact hapart'.imp fun _ _ _ _ h s hs hne hmem => h s hs hne (List.mem_cons_of_mem _ hmem)
      · rw [Function.update_self]
        exact hexact.mpr hvalue
      · intro d hd r hr s hs hne
        have hoff := hapart' d hd r hr s hs hne
        have hne' : s ≠ step.var := fun h => hoff (h ▸ List.mem_cons_of_mem _ List.mem_cons_self)
        rw [Function.update_of_ne hne']
        exact hsiblings' d hd r hr s hs hne

/-- From the values of the path, the first one is recovered. -/
theorem recoverBack_spec (iterBounds coordBounds : IndexVar → Bounds) {p : IndexVar} (hpath : Descends g (p :: path))
    (hnd : (p :: path).Nodup) (htiled : Tiled g path val) (hapart : Apart g path (p :: path))
    (hvalues : ∀ c ∈ p :: path, env c = val c) (hsiblings : SiblingsAgree g path val env) :
    ∃ back, g.recoverBack iterBounds coordBounds (p :: path) env = some back ∧ (∀ c ∈ p :: path, back c = val c) ∧
      ∀ c ∉ p :: path, back c = env c := by
  induction path generalizing p with
  | nil => exact ⟨env, rfl, hvalues, fun _ _ => rfl⟩
  | cons c path ih =>
    cases hpath with
    | @cons rel _ _ hchild hparent hmem hpath =>
      obtain ⟨⟨hkind, hnodup, hconsistent⟩, htiled⟩ := (onPath_cons hparent).mp htiled
      obtain ⟨hoff, hapart'⟩ := (onPath_cons hparent).mp hapart
      obtain ⟨hsibling, hsiblings'⟩ := (onPath_cons hparent).mp hsiblings
      obtain ⟨back, hback, hon, hframe⟩ := ih hpath (List.nodup_cons.mp hnd).2 htiled
        (hapart'.imp fun _ _ _ _ h s hs hne hmem => h s hs hne (List.mem_cons_of_mem _ hmem))
        (fun d hd => hvalues d (List.mem_cons_of_mem _ hd)) hsiblings'
      have hchildren : ∀ s ∈ rel.getChildren, back s = val s := by
        intro s hs
        by_cases hsc : s = c
        · exact hsc ▸ hon c List.mem_cons_self
        · rw [hframe s fun h => hoff s hs hsc (List.mem_cons_of_mem _ h)]
          exact hsibling s hs hsc
      have hvalue : (rel.recoverVariable Expr.var (iterBounds rel.parentVar) (coordBounds rel.parentVar)).evalInt back =
          val rel.parentVar := by
        cases rel with
        | split rel =>
          have houter := hchildren rel.outerVar List.mem_cons_self
          have hinner := hchildren rel.innerVar (List.mem_cons_of_mem _ (List.mem_singleton_self _))
          simp only [IndexVarRel.recoverVariable, SplitRelNode.recoverVariable, Expr.evalInt, houter, hinner]
          exact hconsistent.symm
        | bound rel => exact (hchildren rel.boundVar (List.mem_singleton_self _)).trans hconsistent.symm
        | divide rel => exact hkind.elim
        | pos rel => exact hkind.elim
      refine ⟨_, by rw [ProvenanceGraph.recoverBack, hback, hchild]; rfl, fun d hd => ?_, fun d hd => ?_⟩
      · by_cases hdp : d = rel.parentVar
        · rw [hdp, Function.update_self, hvalue]
        · rw [Function.update_of_ne hdp]
          exact hon d ((List.mem_cons.mp hd).resolve_left hdp)
      · obtain ⟨hdp, hdpath⟩ := not_or.mp fun h => hd (List.mem_cons.mpr h)
        rw [Function.update_of_ne hdp]
        exact hframe d hdpath

end Steps

/-- Recovering the variables between an underived variable and a loop gives each its value, unless the outer variable
    of a split is recovered, whose value is neither 0 nor split by 1. -/
theorem recovers_iff {g : ProvenanceGraph} {t : Derivation} (hr : Represents g t) (hroot : g.parentRel? t.label = none)
    (hnd : t.labels.Nodup) {fuel : ℕ} (hfuel : t.relations.length ≤ fuel) {indexVar : IndexVar}
    (hv : indexVar ∈ t.leaves) (emitVarDecl : Bool) (iterBounds coordBounds : IndexVar → Bounds) {val env : IntEnv}
    (hchain : OnPath g (g.derivationPath fuel t.label indexVar).tail fun _ rel => rel.Splits ∧ rel.Consistent val)
    (henv : env t.label = val t.label)
    (hsiblings : SiblingsAgree g (g.derivationPath fuel t.label indexVar).tail val env) :
    Recovers g fuel t.label indexVar emitVarDecl iterBounds coordBounds val env ↔
      OuterExact g (g.derivationPath fuel t.label indexVar).tail val := by
  have hpath := derivationPath_eq hr hnd (t.height_le.trans hfuel) hv
  obtain ⟨path, hlabel⟩ := t.path_eq_cons indexVar
  have hdescends := hlabel ▸ descends_path hr hv
  have hnodup : (t.label :: path).Nodup := hlabel ▸ (t.path_sublist indexVar).nodup hnd
  have hspec : ∀ c ∈ path, ∀ rel, g.parentRel? c = some rel →
      rel.getChildren.Nodup ∧ ∀ s ∈ rel.getChildren, s ≠ c → s ∈ t.labels ∧ s ∉ t.path indexVar := fun c hc rel hrel =>
    children_spec hr hnd hv (by rw [hlabel]; exact hc) hrel
  have hcons : g.derivationPath fuel t.label indexVar = t.label :: path := hpath.trans hlabel
  unfold Recovers
  rw [hcons, List.tail_cons] at hchain hsiblings ⊢
  have htiled : Tiled g path val := hchain.imp fun c hc rel hrel h => ⟨h.1, (hspec c hc rel hrel).1, h.2⟩
  have hapart : Apart g path (t.label :: path) := fun c hc rel hrel s hs hne =>
    hlabel ▸ ((hspec c hc rel hrel).2 s hs hne).2
  obtain ⟨steps, hsteps, hvars⟩ := exists_stepsAlong emitVarDecl hdescends htiled
  have hcode : g.codeToRecoverDerivedIndexVar fuel t.label indexVar Expr.var emitVarDecl = some steps := by
    have hancestor : g.getUnderivedAncestor fuel indexVar = t.label :=
      (climbs_above hr hnd (t.leaves_subset_labels hv)).getUnderivedAncestor hroot ((length_above_le _ t).trans hfuel)
    rw [ProvenanceGraph.codeToRecoverDerivedIndexVar]
    split_ifs with hself
    · -- the variable itself is iterated
      have hnil : path = [] := by
        rw [hself, g.derivationPath_self] at hcons
        exact (List.cons.inj hcons).2.symm
      rw [hnil] at hsteps
      exact hsteps
    · have hfilter : (t.label :: path).filter (· ≠ t.label) = path := by
        rw [List.filter_cons_of_neg (by simp), List.filter_eq_self]
        intro c hc
        exact decide_eq_true fun h => (List.nodup_cons.mp hnodup).1 (h ▸ hc)
      rw [hcons, hfilter]
      exact hsteps
  have hframe : ∀ c ∉ path, runSteps steps env c = env c := fun c hc => runSteps_frame (hvars.symm ▸ hc)
  have hexact := runSteps_path_iff hdescends hnodup htiled hapart henv hsiblings hsteps
  constructor
  · rintro ⟨steps', hsteps', hvalues, -⟩
    obtain rfl : steps = steps' := Option.some.inj (hcode.symm.trans hsteps')
    exact hexact.mp fun c hc => hvalues c (List.mem_cons_of_mem _ hc)
  · intro houter
    have hvalues : ∀ c ∈ t.label :: path, runSteps steps env c = val c := by
      rw [List.forall_mem_cons, hframe _ (List.nodup_cons.mp hnodup).1]
      exact ⟨henv, hexact.mpr houter⟩
    have hsiblings' : SiblingsAgree g path val (runSteps steps env) := fun c hc rel hrel s hs hne => by
      rw [hframe s fun h => hapart c hc rel hrel s hs hne (List.mem_cons_of_mem _ h)]
      exact hsiblings c hc rel hrel s hs hne
    obtain ⟨back, hback, hon, -⟩ := recoverBack_spec iterBounds coordBounds hdescends hnodup htiled hapart hvalues hsiblings'
    exact ⟨steps, hcode, hvalues, back, hback, hon _ List.mem_cons_self⟩

/-! ### A split by 4 -/

/-- `split(0, 1, 2, 4)`. -/
def tile : SplitRelNode := ⟨0, 1, 2, 4⟩

def tiles : ProvenanceGraph := ⟨[.split tile]⟩

/-- Coordinate 6 is the third one of the second tile. -/
def tileVal : IntEnv := fun v => if v = 0 then 6 else if v = 1 then 1 else 2

theorem tile_consistent : (IndexVarRel.split tile).Consistent tileVal := rfl

/-- The inner variable is not defined yet. -/
theorem recovers_iff_tile :
    Recovers tiles 1 0 2 true (fun _ => (.literal 0, .literal 0)) (fun _ => (.literal 0, .literal 0)) tileVal
      (Function.update tileVal 2 0) := by
  have hr : Represents tiles (.binary (.split tile) (.leaf 1) (.leaf 2)) := ⟨rfl, rfl, rfl, rfl, rfl, rfl⟩
  have hon : ∀ {P : IndexVar → IndexVarRel → Prop}, P 2 (.split tile) → OnPath tiles (tiles.derivationPath 1 0 2).tail P :=
    fun h => (onPath_cons rfl).mpr ⟨h, onPath_nil⟩
  have hsiblings : SiblingsAgree tiles (tiles.derivationPath 1 0 2).tail tileVal (Function.update tileVal 2 0) :=
    hon fun s _ hne => Function.update_of_ne hne _ _
  have hexact : OuterExact tiles (tiles.derivationPath 1 0 2).tail tileVal := hon fun split heq hinner => by
    obtain rfl := IndexVarRel.split.inj heq
    cases hinner
  have hcoordinate : Function.update tileVal 2 0 0 = tileVal 0 := Function.update_of_ne (by decide) _ _
  exact (recovers_iff hr rfl (by decide) (le_refl 1) (by decide) true _ _ (hon ⟨Nat.zero_lt_succ 3, tile_consistent⟩)
    hcoordinate hsiblings).mpr hexact

/-- The outer variable becomes 6 - 2. -/
theorem tile_outer_not_recovers :
    ¬ ∀ val env : IntEnv, (IndexVarRel.split tile).Consistent val → env 0 = val 0 → env 2 = val 2 →
      Recovers tiles 1 0 1 true (fun _ => (.literal 0, .literal 0)) (fun _ => (.literal 0, .literal 0)) val env := by
  intro h
  obtain ⟨steps, hsteps, hvalues, -⟩ := h tileVal tileVal tile_consistent rfl rfl
  obtain rfl : [tile.recoverChild 1 Expr.var true] = steps := Option.some.inj hsteps
  have houter := hvalues 1 (by decide)
  exact absurd houter (by decide)

end Scheduling
end Taco
