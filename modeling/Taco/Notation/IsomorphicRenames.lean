import Taco.Notation.IsomorphicExact

/-! Exactly which expressions and statements are isomorphic to their renamings and to nothing else: those without calls of
    `max` and `min`, without relations between index variables and without assembled results. -/

namespace Taco
namespace Notation

open IndexNotation (Intrinsic)
open Renamings

/-! ### What is not compared exactly -/

namespace IndexExpr

mutual

/-- The functions that are called. -/
def intrinsics : IndexExpr → List Intrinsic
  | undefined | access _ | literal _ _ => []
  | neg a | sqrt a | cast a _ => a.intrinsics
  | add a b | sub a b | mul a b | div a b => a.intrinsics ++ b.intrinsics
  | callIntrinsic func args => func :: intrinsicsAll args
  | reduction op _ a => op.intrinsics ++ a.intrinsics

def intrinsicsAll : List IndexExpr → List Intrinsic
  | [] => []
  | a :: as => a.intrinsics ++ intrinsicsAll as

end

end IndexExpr

namespace IndexStmt

def intrinsics : IndexStmt → List Intrinsic
  | undefined => []
  | assignment _ rhs op => rhs.intrinsics ++ op.intrinsics
  | yield _ expr => expr.intrinsics
  | .forall _ stmt _ | suchThat stmt _ => stmt.intrinsics
  | .where a b | sequence a b | assemble a b _ | multi a b => a.intrinsics ++ b.intrinsics

def predicates : IndexStmt → List (List IndexVarRel)
  | undefined | assignment _ _ _ | yield _ _ => []
  | .forall _ stmt _ => stmt.predicates
  | suchThat stmt predicate => predicate :: stmt.predicates
  | .where a b | sequence a b | assemble a b _ | multi a b => a.predicates ++ b.predicates

/-- The results of the queries of each `Assemble`. -/
def queryResults : IndexStmt → List AttrQueryResults
  | undefined | assignment _ _ _ | yield _ _ => []
  | .forall _ stmt _ | suchThat stmt _ => stmt.queryResults
  | assemble a b results => results :: (a.queryResults ++ b.queryResults)
  | .where a b | sequence a b | multi a b => a.queryResults ++ b.queryResults

end IndexStmt

/-! ### Two comparisons -/

section Congr

variable {c c' : Comparison} {r : Renaming}

namespace IndexExpr

mutual

theorem matches_congr : ∀ {a : IndexExpr}, (∀ f ∈ a.intrinsics, ∀ g, c.func f g ↔ c'.func f g) →
    ∀ b, a.Matches c r b ↔ a.Matches c' r b
  | undefined, _, _ | access _, _, _ | literal _ _, _, _ => Iff.rfl
  | neg a, h, b | sqrt a, h, b | cast a _, h, b => by
    simp only [intrinsics] at h
    simp only [Matches, matches_congr h]
  | add a a', h, b | sub a a', h, b | mul a a', h, b | div a a', h, b => by
    simp only [intrinsics, List.forall_mem_append] at h
    simp only [Matches, matches_congr h.1, matches_congr h.2]
  | callIntrinsic func args, h, b => by
    simp only [intrinsics, List.forall_mem_cons] at h
    simp only [Matches, h.1, matchesAll_congr h.2]
  | reduction op var a, h, b => by
    simp only [intrinsics, List.forall_mem_append] at h
    simp only [Matches, matches_congr h.1, matches_congr h.2]

theorem matchesAll_congr : ∀ {as : List IndexExpr}, (∀ f ∈ intrinsicsAll as, ∀ g, c.func f g ↔ c'.func f g) →
    ∀ bs, MatchesAll c r as bs ↔ MatchesAll c' r as bs
  | [], _, _ => Iff.rfl
  | a :: as, h, bs => by
    simp only [intrinsicsAll, List.forall_mem_append] at h
    simp only [MatchesAll, matches_congr h.1, matchesAll_congr h.2]

end

end IndexExpr

theorem IndexStmt.matches_congr {a : IndexStmt} (hfunc : ∀ f ∈ a.intrinsics, ∀ g, c.func f g ↔ c'.func f g)
    (hpredicate : ∀ p ∈ a.predicates, ∀ q, c.predicate r p q ↔ c'.predicate r p q)
    (hresults : ∀ p ∈ a.queryResults, ∀ q, c.results r p q ↔ c'.results r p q) (b : IndexStmt) :
    a.Matches c r b ↔ a.Matches c' r b := by
  induction a generalizing b with
  | undefined => exact Iff.rfl
  | assignment lhs rhs op =>
    simp only [intrinsics, List.forall_mem_append] at hfunc
    simp only [Matches, IndexExpr.matches_congr hfunc.1, IndexExpr.matches_congr hfunc.2]
  | yield indexVars expr =>
    simp only [intrinsics] at hfunc
    simp only [Matches, IndexExpr.matches_congr hfunc]
  | «forall» i a tags ih => simp only [Matches, ih hfunc hpredicate hresults]
  | «where» a a' ih ih' | sequence a a' ih ih' | multi a a' ih ih' =>
    simp only [intrinsics, predicates, queryResults, List.forall_mem_append] at hfunc hpredicate hresults
    simp only [Matches, ih hfunc.1 hpredicate.1 hresults.1, ih' hfunc.2 hpredicate.2 hresults.2]
  | assemble a a' results ih ih' =>
    simp only [intrinsics, predicates, List.forall_mem_append] at hfunc hpredicate
    simp only [queryResults, List.forall_mem_append, List.forall_mem_cons] at hresults
    simp only [Matches, ih hfunc.1 hpredicate.1 hresults.2.1, ih' hfunc.2 hpredicate.2 hresults.2.2, hresults.1]
  | suchThat a predicate ih =>
    simp only [predicates, List.forall_mem_cons] at hpredicate
    simp only [Matches, ih hfunc hpredicate.2 hresults, hpredicate.1]

end Congr

/-! ### Replacements -/

/-- What is put in place of the parts of a node. -/
structure Replacement where
  func : Intrinsic → Intrinsic
  var : IndexVar → IndexVar
  predicate : List IndexVarRel → List IndexVarRel
  results : AttrQueryResults → AttrQueryResults

/-- The renaming of the index variables only. -/
def Renaming.ofVar (σ : IndexVar → IndexVar) (hσ : Function.Injective σ) : Renaming where
  tensor a b := a = b
  var a b := b = σ a
  tensor_oneToOne := .eq
  var_oneToOne := .of_injective hσ
  sameKind := Renaming.refl.sameKind

def Access.rename (σ : IndexVar → IndexVar) (a : Access) : Access where
  tensorVar := a.tensorVar
  indexVars := a.indexVars.map σ
  windowedModes := a.windowedModes
  indexSetModes := a.indexSetModes
  isAccessingStructure := a.isAccessingStructure
  complete := by rw [List.length_map, a.complete]

theorem renamed_map (σ : IndexVar → IndexVar) (hσ : Function.Injective σ) (vars : List IndexVar) :
    List.Forall₂ (Renaming.ofVar σ hσ).var vars (vars.map σ) :=
  List.forall₂_map_right_iff.mpr (List.forall₂_same.mpr fun _ _ => rfl)

theorem Access.renamed_rename (σ : IndexVar → IndexVar) (hσ : Function.Injective σ) (a : Access) :
    a.Renamed (.ofVar σ hσ) (a.rename σ) where
  tensorVar := rfl
  indexVars := renamed_map σ hσ a.indexVars
  isAccessingStructure := rfl
  windowedModes := rfl
  indexSetModes := rfl

namespace IndexExpr

mutual

def replace (p : Replacement) : IndexExpr → IndexExpr
  | undefined => undefined
  | access a => access (a.rename p.var)
  | literal type val => literal type val
  | neg a => neg (a.replace p)
  | sqrt a => sqrt (a.replace p)
  | add a b => add (a.replace p) (b.replace p)
  | sub a b => sub (a.replace p) (b.replace p)
  | mul a b => mul (a.replace p) (b.replace p)
  | div a b => div (a.replace p) (b.replace p)
  | cast a type => cast (a.replace p) type
  | callIntrinsic func args => callIntrinsic (p.func func) (replaceAll p args)
  | reduction op var a => reduction (op.replace p) (p.var var) (a.replace p)

def replaceAll (p : Replacement) : List IndexExpr → List IndexExpr
  | [] => []
  | a :: as => a.replace p :: replaceAll p as

end

end IndexExpr

namespace IndexStmt

def replace (p : Replacement) : IndexStmt → IndexStmt
  | undefined => undefined
  | assignment lhs rhs op => assignment (lhs.rename p.var) (rhs.replace p) (op.replace p)
  | yield indexVars expr => yield (indexVars.map p.var) (expr.replace p)
  | .forall i stmt tags => .forall (p.var i) (stmt.replace p) tags
  | .where a b => .where (a.replace p) (b.replace p)
  | sequence a b => sequence (a.replace p) (b.replace p)
  | assemble a b results => assemble (a.replace p) (b.replace p) (p.results results)
  | multi a b => multi (a.replace p) (b.replace p)
  | suchThat stmt predicate => suchThat (stmt.replace p) (p.predicate predicate)

end IndexStmt

section Replace

variable {c : Comparison} {p : Replacement} {r : Renaming}

namespace IndexExpr

mutual

/-- An expression matches its replacement where the functions do. -/
theorem matches_replace (hvar : Function.Injective p.var) (hfunc : ∀ f, c.func f (p.func f)) :
    ∀ a : IndexExpr, a.Matches c (.ofVar p.var hvar) (a.replace p)
  | undefined | literal _ _ => rfl
  | access a => ⟨_, rfl, a.renamed_rename p.var hvar⟩
  | neg a | sqrt a | cast a _ => ⟨_, rfl, matches_replace hvar hfunc a⟩
  | add a b | sub a b | mul a b | div a b => ⟨_, _, rfl, matches_replace hvar hfunc a, matches_replace hvar hfunc b⟩
  | callIntrinsic func args => ⟨_, _, rfl, hfunc func, matchesAll_replace hvar hfunc args⟩
  | reduction op _ a => ⟨_, _, _, rfl, matches_replace hvar hfunc op, rfl, matches_replace hvar hfunc a⟩

theorem matchesAll_replace (hvar : Function.Injective p.var) (hfunc : ∀ f, c.func f (p.func f)) :
    ∀ as : List IndexExpr, MatchesAll c (.ofVar p.var hvar) as (replaceAll p as)
  | [] => rfl
  | a :: as => ⟨_, _, rfl, matches_replace hvar hfunc a, matchesAll_replace hvar hfunc as⟩

end

mutual

/-- Only where the functions match does an expression match its replacement. -/
theorem func_of_matches_replace : ∀ {a : IndexExpr}, a.Matches c r (a.replace p) → ∀ f ∈ a.intrinsics, c.func f (p.func f)
  | undefined, _ | access _, _ | literal _ _, _ => by simp [intrinsics]
  | neg a, h | sqrt a, h | cast a _, h => by
    obtain ⟨_, heq, ha⟩ := h
    cases heq
    exact func_of_matches_replace (a := a) ha
  | add a b, h | sub a b, h | mul a b, h | div a b, h => by
    obtain ⟨_, _, heq, ha, hb⟩ := h
    cases heq
    exact List.forall_mem_append.mpr ⟨func_of_matches_replace ha, func_of_matches_replace hb⟩
  | callIntrinsic func args, h => by
    obtain ⟨_, _, heq, hfunc, hargs⟩ := h
    cases heq
    exact List.forall_mem_cons.mpr ⟨hfunc, func_of_matchesAll_replace hargs⟩
  | reduction op var a, h => by
    obtain ⟨_, _, _, heq, hop, -, ha⟩ := h
    cases heq
    exact List.forall_mem_append.mpr ⟨func_of_matches_replace hop, func_of_matches_replace ha⟩

theorem func_of_matchesAll_replace : ∀ {as : List IndexExpr}, MatchesAll c r as (replaceAll p as) →
    ∀ f ∈ intrinsicsAll as, c.func f (p.func f)
  | [], _ => by simp [intrinsicsAll]
  | a :: as, h => by
    obtain ⟨_, _, heq, ha, has⟩ := h
    cases heq
    exact List.forall_mem_append.mpr ⟨func_of_matches_replace ha, func_of_matchesAll_replace has⟩

end

end IndexExpr

namespace IndexStmt

/-- A statement matches its replacement where the functions, the predicates and the results do. -/
theorem matches_replace (hvar : Function.Injective p.var) (hfunc : ∀ f, c.func f (p.func f))
    (hpredicate : ∀ q, c.predicate (.ofVar p.var hvar) q (p.predicate q))
    (hresults : ∀ q, c.results (.ofVar p.var hvar) q (p.results q)) (a : IndexStmt) :
    a.Matches c (.ofVar p.var hvar) (a.replace p) := by
  induction a with
  | undefined => rfl
  | assignment lhs rhs op =>
    exact ⟨_, _, _, rfl, lhs.renamed_rename p.var hvar, rhs.matches_replace hvar hfunc, op.matches_replace hvar hfunc⟩
  | yield indexVars expr => exact ⟨_, _, rfl, renamed_map p.var hvar indexVars, expr.matches_replace hvar hfunc⟩
  | «forall» i a tags ih => exact ⟨_, _, rfl, rfl, ih⟩
  | «where» a a' ih ih' | sequence a a' ih ih' | multi a a' ih ih' => exact ⟨_, _, rfl, ih, ih'⟩
  | assemble a a' results ih ih' => exact ⟨_, _, _, rfl, ih, ih', hresults results⟩
  | suchThat a predicate ih => exact ⟨_, _, rfl, ih, hpredicate predicate⟩

/-- Only where all of them match does a statement match its replacement. -/
theorem of_matches_replace {a : IndexStmt} (h : a.Matches c r (a.replace p)) :
    (∀ f ∈ a.intrinsics, c.func f (p.func f)) ∧ (∀ q ∈ a.predicates, c.predicate r q (p.predicate q)) ∧
      ∀ q ∈ a.queryResults, c.results r q (p.results q) := by
  induction a with
  | undefined => simp [intrinsics, predicates, queryResults]
  | assignment lhs rhs op =>
    obtain ⟨_, _, _, heq, -, hrhs, hop⟩ := h
    cases heq
    refine ⟨List.forall_mem_append.mpr ⟨?_, ?_⟩, by simp [predicates], by simp [queryResults]⟩
    · exact IndexExpr.func_of_matches_replace hrhs
    · exact IndexExpr.func_of_matches_replace hop
  | yield indexVars expr =>
    obtain ⟨_, _, heq, -, hexpr⟩ := h
    cases heq
    exact ⟨IndexExpr.func_of_matches_replace hexpr, by simp [predicates], by simp [queryResults]⟩
  | «forall» i a tags ih =>
    obtain ⟨_, _, heq, -, ha⟩ := h
    cases heq
    exact ih ha
  | «where» a a' ih ih' | sequence a a' ih ih' | multi a a' ih ih' =>
    obtain ⟨_, _, heq, ha, ha'⟩ := h
    cases heq
    obtain ⟨hfunc, hpredicate, hresults⟩ := ih ha
    obtain ⟨hfunc', hpredicate', hresults'⟩ := ih' ha'
    exact ⟨List.forall_mem_append.mpr ⟨hfunc, hfunc'⟩, List.forall_mem_append.mpr ⟨hpredicate, hpredicate'⟩,
      List.forall_mem_append.mpr ⟨hresults, hresults'⟩⟩
  | assemble a a' results ih ih' =>
    obtain ⟨_, _, _, heq, ha, ha', hhere⟩ := h
    cases heq
    obtain ⟨hfunc, hpredicate, hresults⟩ := ih ha
    obtain ⟨hfunc', hpredicate', hresults'⟩ := ih' ha'
    exact ⟨List.forall_mem_append.mpr ⟨hfunc, hfunc'⟩, List.forall_mem_append.mpr ⟨hpredicate, hpredicate'⟩,
      List.forall_mem_cons.mpr ⟨hhere, List.forall_mem_append.mpr ⟨hresults, hresults'⟩⟩⟩
  | suchThat a predicate ih =>
    obtain ⟨_, _, heq, ha, hhere⟩ := h
    cases heq
    obtain ⟨hfunc, hpredicate, hresults⟩ := ih ha
    exact ⟨hfunc, List.forall_mem_cons.mpr ⟨hhere, hpredicate⟩, hresults⟩

end IndexStmt

end Replace

/-! ### Functions, relations and results -/

/-- The function with a name. -/
def intrinsicNamed (name : String) : Option Intrinsic :=
  [.mod, .abs, .pow, .square, .cube, .sqrt, .cbrt, .exp, .log, .log10, .sin, .cos, .tan, .asin, .acos, .atan, .atan2,
    .sinh, .cosh, .tanh, .asinh, .acosh, .atanh, .gt, .lt, .gte, .lte, .eq, .neq, .max, .heaviside, .not].find? fun f =>
      getIntrinsicName f = name

theorem intrinsicNamed_getIntrinsicName {f : Intrinsic} (hf : f ≠ .min) : intrinsicNamed (getIntrinsicName f) = some f := by
  cases f <;> first | rfl | contradiction

/-- Only `max` and `min` share a name. -/
theorem getIntrinsicName_inj {f g : Intrinsic} (hmax : f ≠ .max) (hmin : f ≠ .min) :
    getIntrinsicName f = getIntrinsicName g ↔ f = g := by
  constructor
  · intro h
    by_cases hg : g = .min
    · subst hg
      have hnamed := intrinsicNamed_getIntrinsicName hmin
      rw [h] at hnamed
      exact absurd (Option.some.inj hnamed).symm hmax
    · exact Option.some.inj (((intrinsicNamed_getIntrinsicName hmin).symm.trans (congrArg _ h)).trans
        (intrinsicNamed_getIntrinsicName hg))
  · rintro rfl
    rfl

/-- `max` and `min` in place of each other. -/
def swapMaxMin : Intrinsic → Intrinsic
  | .max => .min
  | .min => .max
  | f => f

theorem getIntrinsicName_swapMaxMin (f : Intrinsic) : getIntrinsicName f = getIntrinsicName (swapMaxMin f) := by
  cases f <;> rfl

theorem ne_of_eq_swapMaxMin {f : Intrinsic} (h : f = swapMaxMin f) : f ≠ .max ∧ f ≠ .min := by
  constructor
  · rintro rfl
    cases h
  · rintro rfl
    cases h

namespace IndexVarRel

def rename (σ : IndexVar → IndexVar) : IndexVarRel → IndexVarRel
  | undefined => undefined
  | split p o i splitFactor => split (σ p) (σ o) (σ i) splitFactor
  | divide p o i divFactor => divide (σ p) (σ o) (σ i) divFactor
  | pos p q node a => pos (σ p) (σ q) node (a.rename σ)
  | fuse o i f => fuse (σ o) (σ i) (σ f)
  | bound p b n boundType => bound (σ p) (σ b) n boundType
  | precompute p q => precompute (σ p) (σ q)

theorem renamed_rename (σ : IndexVar → IndexVar) (hσ : Function.Injective σ) (rel : IndexVarRel) :
    rel.Renamed (.ofVar σ hσ) (rel.rename σ) := by
  cases rel with
  | undefined => exact .undefined
  | split p o i splitFactor => exact .split rfl rfl rfl splitFactor
  | divide p o i divFactor => exact .divide rfl rfl rfl divFactor
  | pos p q node a => exact .pos rfl rfl node node (a.renamed_rename σ hσ)
  | fuse o i f => exact .fuse rfl rfl rfl
  | bound p b n boundType => exact .bound rfl rfl n boundType
  | precompute p q => exact .precompute rfl rfl

/-- A relation that has variables is not equal to itself with other ones. -/
theorem eq_undefined_of_equal_rename {rel : IndexVarRel} (h : rel.equal (rel.rename Nat.succ) = true) :
    rel = undefined := by
  cases rel <;> simp [equal, rename] at h ⊢

theorem renamed_undefined_iff {r : Renaming} {rel : IndexVarRel} :
    Renamed r undefined rel ↔ undefined.equal rel = true := by
  constructor
  · rintro ⟨⟩
    rfl
  · intro h
    cases rel <;> simp [equal] at h
    exact .undefined

end IndexVarRel

theorem predicate_iff {r : Renaming} {p : List IndexVarRel} (h : ∀ rel ∈ p, rel = .undefined) (q : List IndexVarRel) :
    Comparison.coded.predicate r p q ↔ Comparison.exact.predicate r p q := by
  simp only [Comparison.coded, Comparison.exact]
  induction p generalizing q with
  | nil => simp only [List.forall₂_nil_left_iff]
  | cons rel p ih =>
    rw [List.forall_mem_cons] at h
    obtain ⟨rfl, h⟩ := h
    cases q with
    | nil => simp only [List.forall₂_nil_right_iff]
    | cons rel' q => rw [List.forall₂_cons, List.forall₂_cons, ih h, IndexVarRel.renamed_undefined_iff]

theorem resultsRenamed_ofVar (σ : IndexVar → IndexVar) (hσ : Function.Injective σ) (results : AttrQueryResults) :
    ResultsRenamed (.ofVar σ hσ) results results :=
  ⟨results, .refl _, List.forall₂_same.mpr fun _ _ =>
    ⟨rfl, List.forall₂_same.mpr fun _ _ => List.forall₂_same.mpr fun _ _ => rfl⟩⟩

/-- As many results as there are not. -/
def otherResults (results : AttrQueryResults) : AttrQueryResults := if results = [] then [(.dense 0 [], [])] else []

theorem not_resultsRenamed_otherResults {r : Renaming} {results : AttrQueryResults} :
    ¬ ResultsRenamed r results (otherResults results) := by
  rintro ⟨renamed, hperm, h⟩
  have hlength : results.length = (otherResults results).length := h.length_eq.trans hperm.length_eq
  cases results <;> simp [otherResults] at hlength

/-! ### The condition -/

theorem IndexExpr.renames_iff (a : IndexExpr) :
    (∀ b, a.isomorphic b = true ↔ a.Renames b) ↔ ∀ f ∈ a.intrinsics, f ≠ .max ∧ f ≠ .min := by
  constructor
  · intro h f hf
    let p : Replacement := ⟨swapMaxMin, id, id, id⟩
    have hiso : a.isomorphic (a.replace p) = true :=
      (isomorphic_iff _ _).mpr ⟨_, a.matches_replace Function.injective_id getIntrinsicName_swapMaxMin⟩
    obtain ⟨r, hr⟩ := (h _).mp hiso
    exact ne_of_eq_swapMaxMin (func_of_matches_replace hr f hf)
  · intro h b
    rw [isomorphic_iff]
    exact exists_congr fun r => matches_congr (fun f hf g => getIntrinsicName_inj (h f hf).1 (h f hf).2) b

namespace IndexStmt

/-- Nothing in the statement is compared in another way than under a renaming. -/
structure ComparedExactly (a : IndexStmt) : Prop where
  intrinsics : ∀ f ∈ a.intrinsics, f ≠ .max ∧ f ≠ .min
  predicates : ∀ predicate ∈ a.predicates, ∀ rel ∈ predicate, rel = .undefined
  queryResults : a.queryResults = []

variable {a : IndexStmt}

theorem ne_max_min_of_renames (h : ∀ b, a.isomorphic b = true → a.Renames b) : ∀ f ∈ a.intrinsics, f ≠ .max ∧ f ≠ .min := by
  intro f hf
  let p : Replacement := ⟨swapMaxMin, id, id, id⟩
  have hiso : a.isomorphic (a.replace p) = true := (isomorphic_iff _ _).mpr ⟨_, a.matches_replace Function.injective_id
    getIntrinsicName_swapMaxMin (fun _ => List.forall₂_same.mpr fun rel _ => rel.equal_refl) fun _ => trivial⟩
  obtain ⟨r, hr⟩ := h _ hiso
  exact ne_of_eq_swapMaxMin ((of_matches_replace hr).1 f hf)

theorem queryResults_eq_nil_of_renames (h : ∀ b, a.isomorphic b = true → a.Renames b) : a.queryResults = [] := by
  let p : Replacement := ⟨id, id, id, otherResults⟩
  have hiso : a.isomorphic (a.replace p) = true := (isomorphic_iff _ _).mpr ⟨_, a.matches_replace Function.injective_id
    (fun _ => rfl) (fun _ => List.forall₂_same.mpr fun rel _ => rel.equal_refl) fun _ => trivial⟩
  obtain ⟨r, hr⟩ := h _ hiso
  exact List.eq_nil_iff_forall_not_mem.mpr fun results hresults =>
    not_resultsRenamed_otherResults ((of_matches_replace hr).2.2 results hresults)

/-- A statement whose variables are all renamed is isomorphic only if its relations have none. -/
theorem eq_undefined_of_renames (h : ∀ b, a.Renames b → a.isomorphic b = true) :
    ∀ predicate ∈ a.predicates, ∀ rel ∈ predicate, rel = .undefined := by
  let p : Replacement := ⟨id, Nat.succ, List.map (IndexVarRel.rename Nat.succ), id⟩
  have hrenames : a.Renames (a.replace p) := ⟨_, a.matches_replace Nat.succ_injective (fun _ => rfl)
    (fun _ => List.forall₂_map_right_iff.mpr (List.forall₂_same.mpr fun rel _ => rel.renamed_rename _ Nat.succ_injective))
    (resultsRenamed_ofVar _ Nat.succ_injective)⟩
  obtain ⟨r, hr⟩ := (isomorphic_iff _ _).mp (h _ hrenames)
  intro predicate hpredicate rel hrel
  have hequal : List.Forall₂ (fun rel rel' => rel.equal rel' = true) predicate
      (predicate.map (IndexVarRel.rename Nat.succ)) := (of_matches_replace hr).2.1 predicate hpredicate
  rw [List.forall₂_map_right_iff, List.forall₂_same] at hequal
  exact IndexVarRel.eq_undefined_of_equal_rename (hequal rel hrel)

theorem renames_iff (a : IndexStmt) : (∀ b, a.isomorphic b = true ↔ a.Renames b) ↔ a.ComparedExactly := by
  constructor
  · intro h
    exact ⟨ne_max_min_of_renames fun b => (h b).mp, eq_undefined_of_renames fun b => (h b).mpr,
      queryResults_eq_nil_of_renames fun b => (h b).mp⟩
  · rintro ⟨hfunc, hpredicate, hresults⟩ b
    rw [isomorphic_iff]
    refine exists_congr fun r => matches_congr (fun f hf g => getIntrinsicName_inj (hfunc f hf).1 (hfunc f hf).2)
      (fun p hp q => predicate_iff (hpredicate p hp) q) (fun results h q => ?_) b
    rw [hresults] at h
    cases h

end IndexStmt

/-- `isomorphic` is an equivalence, and on an expression or a statement it finds exactly the renamings if and only if no
    part of it is compared in another way. -/
theorem isomorphic_renames_iff (expr : IndexExpr) (stmt : IndexStmt) :
    (Equivalence fun a b : IndexExpr => a.isomorphic b = true) ∧
      (Equivalence fun a b : IndexStmt => a.isomorphic b = true) ∧
      ((∀ b, expr.isomorphic b = true ↔ expr.Renames b) ↔ ∀ f ∈ expr.intrinsics, f ≠ .max ∧ f ≠ .min) ∧
      ((∀ b, stmt.isomorphic b = true ↔ stmt.Renames b) ↔ stmt.ComparedExactly) :=
  ⟨IndexExpr.isomorphic_equivalence, IndexStmt.isomorphic_equivalence, expr.renames_iff, stmt.renames_iff⟩

/-- A function of two vector components. -/
def callOfComponents (func : Intrinsic) : IndexExpr :=
  .callIntrinsic func [.access ((TensorVar.dense 0 [5]).access [0] rfl), .access ((TensorVar.dense 1 [5]).access [0] rfl)]

/-- The larger component is isomorphic to the smaller one. -/
theorem max_isomorphic_min :
    (callOfComponents .max).isomorphic (callOfComponents .min) = true ∧
      ¬ (callOfComponents .max).Renames (callOfComponents .min) := by
  constructor
  · rfl
  · rintro ⟨r, func, args, heq, hfunc, -⟩
    cases heq
    cases hfunc

end Notation
end Taco
