import Mathlib.Data.Finset.Sort
import Taco.Library.CycleSearch
import Taco.Notation.Nodes

/-! `containsTranspose`: the search for a cycle through the orders in which the accesses of a statement store their
    variables. -/

namespace Taco
namespace Notation

open Dependencies

/-! ### The search -/

/-- A map from variables to sets of variables; a variable that is no key has no successors. -/
structure Successors where
  keys : Finset IndexVar
  succs : IndexVar → Finset IndexVar
  absent : ∀ var ∉ keys, succs var = ∅

namespace Successors

def empty : Successors := ⟨∅, fun _ => ∅, fun _ _ => rfl⟩

/-- `at`, which throws if there is no such key. -/
def at? (g : Successors) (var : IndexVar) : Option (Finset IndexVar) := if var ∈ g.keys then some (g.succs var) else none

/-- Insertion of a key, which keeps the set that it has. -/
def insertKey (g : Successors) (var : IndexVar) : Successors where
  keys := insert var g.keys
  succs := g.succs
  absent v hv := g.absent v fun h => hv (Finset.mem_insert_of_mem h)

/-- Insertion into the set of a key. -/
def insertSucc (g : Successors) (var succ : IndexVar) : Successors where
  keys := insert var g.keys
  succs v := if v = var then insert succ (g.succs v) else g.succs v
  absent v hv := by
    rw [Finset.mem_insert, not_or] at hv
    rw [if_neg hv.1, g.absent v hv.2]

/-- The edges of the graph. -/
def Edge (g : Successors) (u v : IndexVar) : Prop := v ∈ g.succs u

end Successors

/-- The variables of a mode ordering's levels, from the outermost level inwards. -/
def levelVars (indexVars : List IndexVar) (modeOrdering : List ℕ) : List IndexVar :=
  modeOrdering.map fun mode => indexVars.getD mode 0

def addEdges (indexVars : List IndexVar) (modeOrdering : List ℕ) (successors : Successors) : Successors :=
  if indexVars.isEmpty then successors
  else
    let vars := levelVars indexVars modeOrdering
    ((vars.zip vars.tail).foldl (fun g edge => g.insertSucc edge.1 edge.2) successors).insertKey (vars.getLastD 0)

/-- The variables that the search has come to, and those that it is still below. -/
structure Marks where
  visited : Finset IndexVar
  marked : Finset IndexVar

/-- One turn of the loop over the successors, which returns at the first that closes a cycle. -/
def visitSucc (hasCycle : IndexVar → Marks → Option (Bool × Marks)) (p : Bool × Marks) (succ : IndexVar) :
    Option (Bool × Marks) :=
  if p.1 then some p
  else if succ ∉ p.2.visited then do
    let (found, m) ← hasCycle succ p.2
    some (found || decide (succ ∈ m.marked), m)
  else some (decide (succ ∈ p.2.marked), p.2)

/-- `hasCycle`, with a bound on the depth of the recursion. -/
def hasCycle (successors : Successors) : ℕ → IndexVar → Marks → Option (Bool × Marks)
  | 0, _, _ => none
  | fuel + 1, var, m =>
    if var ∉ m.visited then do
      let succs ← successors.at? var
      let (found, m) ← (succs.sort (· ≤ ·)).foldlM (visitSucc (hasCycle successors fuel))
        (false, ⟨insert var m.visited, insert var m.marked⟩)
      if found then some (true, m) else some (false, { m with marked := m.marked.erase var })
    else some (false, { m with marked := m.marked.erase var })

/-- One turn of the loop over the keys. -/
def visitRoot (successors : Successors) (fuel : ℕ) (p : Bool × Marks) (var : IndexVar) : Option (Bool × Marks) :=
  if p.1 then some p else hasCycle successors fuel var p.2

/-- The graph of a statement's accesses. -/
def successorsOf (resultFormat : Format) (resultVars : List IndexVar) (expr : IndexExpr) : Successors :=
  expr.accesses.foldl (fun g op => addEdges op.indexVars op.tensorVar.format.modeOrdering g)
    (addEdges resultVars resultFormat.modeOrdering .empty)

/-- `containsTranspose`; there is no result if the bound on the depth of the recursion is too small. -/
def containsTranspose (fuel : ℕ) (resultFormat : Format) (resultVars : List IndexVar) (expr : IndexExpr) : Option Bool := do
  let successors := successorsOf resultFormat resultVars expr
  let (found, _) ← (successors.keys.sort (· ≤ ·)).foldlM (visitRoot successors fuel) (false, ⟨∅, ∅⟩)
  some found

/-! ### The graph -/

namespace Successors

variable {g : Successors} {u v : IndexVar}

@[simp] theorem not_edge_empty : ¬ empty.Edge u v := Finset.notMem_empty v

@[simp] theorem keys_insertKey {var : IndexVar} : (g.insertKey var).keys = insert var g.keys := rfl

@[simp] theorem edge_insertKey {var : IndexVar} : (g.insertKey var).Edge u v ↔ g.Edge u v := Iff.rfl

theorem edge_insertSucc {var succ : IndexVar} : (g.insertSucc var succ).Edge u v ↔ g.Edge u v ∨ (var, succ) = (u, v) := by
  unfold Edge insertSucc
  dsimp only
  by_cases hu : u = var
  · subst hu
    simp [or_comm, eq_comm]
  · simp [hu, Ne.symm hu]

theorem mem_keys_of_edge (h : g.Edge u v) : u ∈ g.keys := by
  by_contra hu
  rw [Edge, g.absent u hu] at h
  exact Finset.notMem_empty v h

theorem edge_foldl (edges : List (IndexVar × IndexVar)) :
    (edges.foldl (fun g edge => g.insertSucc edge.1 edge.2) g).Edge u v ↔ g.Edge u v ∨ (u, v) ∈ edges := by
  induction edges generalizing g with
  | nil => simp
  | cons edge edges ih => rw [List.foldl_cons, ih, edge_insertSucc, or_assoc, List.mem_cons, eq_comm (a := edge)]

theorem keys_foldl (edges : List (IndexVar × IndexVar)) :
    (edges.foldl (fun g edge => g.insertSucc edge.1 edge.2) g).keys = g.keys ∪ (edges.map Prod.fst).toFinset := by
  induction edges generalizing g with
  | nil => simp
  | cons edge edges ih =>
    rw [List.foldl_cons, ih, insertSucc, List.map_cons, List.toFinset_cons, Finset.insert_union, Finset.union_insert]

/-- Edges only lead to keys. -/
def Closed (g : Successors) : Prop := ∀ u v, g.Edge u v → v ∈ g.keys

end Successors

/-! ### Consecutive elements -/

theorem mem_zip_tail {α : Type*} (default : α) :
    ∀ {l : List α} {u : α}, u ∈ l → u ∈ (l.zip l.tail).map Prod.fst ∨ u = l.getLastD default
  | [x], u, hu => Or.inr (List.mem_singleton.mp hu)
  | x :: y :: l, u, hu => by
    rcases List.mem_cons.mp hu with rfl | hu
    · exact Or.inl List.mem_cons_self
    · rcases mem_zip_tail default hu with h | h
      · exact Or.inl (List.mem_cons_of_mem _ h)
      · exact Or.inr h

theorem isChain_iff_zip_tail {α : Type*} {r : α → α → Prop} :
    ∀ {l : List α}, l.IsChain r ↔ ∀ u v, (u, v) ∈ l.zip l.tail → r u v
  | [] => by simp
  | [x] => by simp
  | x :: y :: l => by
    rw [List.isChain_cons_cons, isChain_iff_zip_tail]
    constructor
    · rintro ⟨hxy, h⟩ u v huv
      rcases List.mem_cons.mp huv with heq | huv
      · obtain ⟨rfl, rfl⟩ := Prod.mk.inj heq
        exact hxy
      · exact h u v huv
    · exact fun h => ⟨h x y List.mem_cons_self, fun u v huv => h u v (List.mem_cons_of_mem _ huv)⟩

/-! ### The edges of a statement -/

variable {g : Successors} {indexVars : List IndexVar} {modeOrdering : List ℕ}

theorem edge_addEdges (hne : indexVars ≠ []) {u v : IndexVar} :
    (addEdges indexVars modeOrdering g).Edge u v ↔
      g.Edge u v ∨ (u, v) ∈ (levelVars indexVars modeOrdering).zip (levelVars indexVars modeOrdering).tail := by
  rw [addEdges, if_neg (by simpa using hne), Successors.edge_insertKey, Successors.edge_foldl]

theorem Successors.Closed.addEdges (hg : g.Closed) : (addEdges indexVars modeOrdering g).Closed := by
  by_cases hne : indexVars = []
  · rw [Notation.addEdges, if_pos (by simp [hne])]
    exact hg
  · intro u v huv
    have hkeys : (Notation.addEdges indexVars modeOrdering g).keys =
        insert ((levelVars indexVars modeOrdering).getLastD 0) (g.keys ∪
          (((levelVars indexVars modeOrdering).zip (levelVars indexVars modeOrdering).tail).map Prod.fst).toFinset) := by
      rw [Notation.addEdges, if_neg (by simpa using hne), keys_insertKey, keys_foldl]
    rw [hkeys, Finset.mem_insert, Finset.mem_union, List.mem_toFinset]
    rcases (edge_addEdges hne).mp huv with h | h
    · exact Or.inr (Or.inl (hg u v h))
    · rcases mem_zip_tail 0 (List.mem_of_mem_tail (List.of_mem_zip h).2) with h | h
      · exact Or.inr (Or.inr h)
      · exact Or.inl h

theorem Successors.closed_empty : Successors.empty.Closed := fun _ _ h => absurd h not_edge_empty

/-- The variables of an access in the order of its storage levels. -/
def Access.storageOrder (a : Access) : List IndexVar := levelVars a.indexVars a.tensorVar.format.modeOrdering

/-- The order has no variables for an access without variables. -/
theorem Access.storageOrder_eq_nil {a : Access} (h : a.indexVars = []) : a.storageOrder = [] := by
  have horder : a.tensorVar.format.getOrder = 0 := by
    rw [a.tensorVar.complete]
    exact a.complete.symm.trans (by rw [h, List.length_nil])
  have hordering := a.tensorVar.format.complete
  rw [← Format.getOrder, horder, List.range_zero, List.perm_nil] at hordering
  rw [storageOrder, levelVars, hordering, List.map_nil]

theorem edge_addEdges_access (a : Access) {u v : IndexVar} :
    (addEdges a.indexVars a.tensorVar.format.modeOrdering g).Edge u v ↔
      g.Edge u v ∨ (u, v) ∈ a.storageOrder.zip a.storageOrder.tail := by
  by_cases hne : a.indexVars = []
  · simp [addEdges, hne, a.storageOrder_eq_nil hne]
  · exact edge_addEdges hne

theorem edge_foldl_addEdges (accesses : List Access) {u v : IndexVar} :
    (accesses.foldl (fun g op => addEdges op.indexVars op.tensorVar.format.modeOrdering g) g).Edge u v ↔
      g.Edge u v ∨ ∃ a ∈ accesses, (u, v) ∈ a.storageOrder.zip a.storageOrder.tail := by
  induction accesses generalizing g with
  | nil => simp
  | cons a accesses ih => rw [List.foldl_cons, ih, edge_addEdges_access, or_assoc, List.exists_mem_cons_iff]

theorem closed_foldl_addEdges (accesses : List Access) (hg : g.Closed) :
    (accesses.foldl (fun g op => addEdges op.indexVars op.tensorVar.format.modeOrdering g) g).Closed := by
  induction accesses generalizing g with
  | nil => exact hg
  | cons a accesses ih => exact ih hg.addEdges

theorem closed_successorsOf (resultFormat : Format) (resultVars : List IndexVar) (expr : IndexExpr) :
    (successorsOf resultFormat resultVars expr).Closed :=
  closed_foldl_addEdges _ Successors.closed_empty.addEdges

theorem edge_successorsOf (lhs : Access) (expr : IndexExpr) {u v : IndexVar} :
    (successorsOf lhs.tensorVar.format lhs.indexVars expr).Edge u v ↔
      ∃ a ∈ lhs :: expr.accesses, (u, v) ∈ a.storageOrder.zip a.storageOrder.tail := by
  rw [successorsOf, edge_foldl_addEdges, edge_addEdges_access, List.exists_mem_cons_iff]
  simp

/-! ### What a search finds out -/

/-- The search has been through everything below the variable. -/
def Marks.Done (m : Marks) (u : IndexVar) : Prop := u ∈ m.visited ∧ u ∉ m.marked

/-- What the search knows between two of its steps. -/
structure Searched (g : Successors) (m : Marks) : Prop where
  marked_subset : m.marked ⊆ m.visited
  closed : ∀ u, m.Done u → ∀ v, g.Edge u v → m.Done v
  acyclic : ∀ u, m.Done u → ¬ Relation.TransGen g.Edge u u

/-- What a search below `var` that finds no cycle changes. -/
structure Explored (g : Successors) (m m' : Marks) (var : IndexVar) : Prop where
  searched : Searched g m'
  marked_eq : m'.marked = m.marked
  subset : m.visited ⊆ m'.visited
  done : m'.Done var

/-- A search ends with a cycle, or with everything below `var` explored. -/
def Finds (g : Successors) (m : Marks) (var : IndexVar) (r : Option (Bool × Marks)) : Prop :=
  ∃ p, r = some p ∧ (p.1 = true → Cyclic g.Edge) ∧ (p.1 = false → Explored g m p.2 var)

theorem Marks.Done.mono {m m' : Marks} {u : IndexVar} (h : m.Done u) (hmarked : m'.marked = m.marked)
    (hsub : m.visited ⊆ m'.visited) : m'.Done u :=
  ⟨hsub h.1, by rw [hmarked]; exact h.2⟩

/-- The marks below a variable that the search enters. -/
def Marks.enter (m : Marks) (var : IndexVar) : Marks := ⟨insert var m.visited, insert var m.marked⟩

variable {m : Marks} {var : IndexVar}

theorem Marks.done_enter (hvar : var ∉ m.visited) {u : IndexVar} : (m.enter var).Done u ↔ m.Done u := by
  have hne : m.Done u → u ≠ var := by
    rintro h rfl
    exact hvar h.1
  constructor
  · rintro ⟨hu, hnot⟩
    obtain ⟨hne, hnot⟩ := not_or.mp (fun h => hnot (Finset.mem_insert.mpr h))
    exact ⟨(Finset.mem_insert.mp hu).resolve_left hne, hnot⟩
  · intro h
    exact ⟨Finset.mem_insert_of_mem h.1, fun hmem => (Finset.mem_insert.mp hmem).elim (hne h) h.2⟩

theorem Searched.enter (hm : Searched g m) (hvar : var ∉ m.visited) : Searched g (m.enter var) where
  marked_subset := Finset.insert_subset_insert _ hm.marked_subset
  closed u hu v huv := (Marks.done_enter hvar).mpr (hm.closed u ((Marks.done_enter hvar).mp hu) v huv)
  acyclic u hu := hm.acyclic u ((Marks.done_enter hvar).mp hu)

/-- Leaving a variable whose successors are all explored. -/
theorem Searched.leave {m' : Marks} (hm' : Searched g m') (hmarked : m'.marked = insert var m.marked)
    (hsub : insert var m.visited ⊆ m'.visited) (hvar : var ∉ m.marked) (hdone : ∀ v, g.Edge var v → m'.Done v) :
    Explored g m { m' with marked := m'.marked.erase var } var := by
  have hself : ¬ m'.Done var := fun h => h.2 (by rw [hmarked]; exact Finset.mem_insert_self _ _)
  have hdone_iff : ∀ u, Marks.Done { m' with marked := m'.marked.erase var } u ↔ u = var ∨ m'.Done u := by
    intro u
    by_cases hu : u = var
    · subst hu
      exact ⟨fun _ => Or.inl rfl, fun _ => ⟨hsub (Finset.mem_insert_self _ _), Finset.notMem_erase _ _⟩⟩
    · simp [Marks.Done, hu]
  refine ⟨⟨?_, ?_, ?_⟩, ?_, ?_, (hdone_iff var).mpr (Or.inl rfl)⟩
  · exact (Finset.erase_subset _ _).trans hm'.marked_subset
  · intro u hu v huv
    rcases (hdone_iff u).mp hu with rfl | hu
    · exact (hdone_iff v).mpr (Or.inr (hdone v huv))
    · exact (hdone_iff v).mpr (Or.inr (hm'.closed u hu v huv))
  · intro u hu
    rcases (hdone_iff u).mp hu with rfl | hu
    · exact not_transGen_self (s := { w | m'.Done w }) hm'.closed hself hdone
    · exact hm'.acyclic u hu
  · exact (congrArg (Finset.erase · var) hmarked).trans (Finset.erase_insert hvar)
  · exact (Finset.subset_insert _ _).trans hsub

/-- The loop over the successors of `var`, when the search below each of them does what it promises. -/
theorem foldlM_visitSucc {search : IndexVar → Marks → Option (Bool × Marks)} {m₀ : Marks}
    (hsearch : ∀ v m, Searched g m → m.marked = m₀.marked → m₀.visited ⊆ m.visited → v ∉ m.visited → g.Edge var v →
      Finds g m v (search v m))
    (hreach : ∀ u ∈ m₀.marked, Relation.ReflTransGen g.Edge u var) (succs : List IndexVar)
    (hsuccs : ∀ v ∈ succs, g.Edge var v) (hm : Searched g m) (hmarked : m.marked = m₀.marked)
    (hsub : m₀.visited ⊆ m.visited) :
    ∃ p, succs.foldlM (visitSucc search) (false, m) = some p ∧ (p.1 = true → Cyclic g.Edge) ∧
      (p.1 = false → Searched g p.2 ∧ p.2.marked = m₀.marked ∧ m.visited ⊆ p.2.visited ∧ ∀ v ∈ succs, p.2.Done v) := by
  have hstop : ∀ (succs : List IndexVar) (m : Marks), succs.foldlM (visitSucc search) (true, m) = some (true, m) := by
    intro succs m
    induction succs with
    | nil => rfl
    | cons v succs ih => exact ih
  have hcycle : ∀ v ∈ m₀.marked, g.Edge var v → Cyclic g.Edge := fun v hv hedge =>
    ⟨v, Relation.TransGen.tail' (hreach v hv) hedge⟩
  induction succs generalizing m with
  | nil => exact ⟨_, rfl, fun h => (Bool.false_ne_true h).elim, fun _ => ⟨hm, hmarked, subset_rfl, by simp⟩⟩
  | cons v succs ih =>
    have hedge := hsuccs v List.mem_cons_self
    have ih := fun m hm hmarked hsub => ih (m := m) (fun u hu => hsuccs u (List.mem_cons_of_mem _ hu)) hm hmarked hsub
    -- After `v`, either a cycle is closed, or `v` is explored.
    obtain ⟨p, hp, htrue, hfalse⟩ : ∃ p, visitSucc search (false, m) v = some p ∧ (p.1 = true → Cyclic g.Edge) ∧
        (p.1 = false → Explored g m p.2 v) := by
      by_cases hv : v ∈ m.visited
      · refine ⟨(decide (v ∈ m.marked), m), by simp [visitSucc, hv], fun h => ?_, fun h => ?_⟩
        · exact hcycle v (hmarked ▸ of_decide_eq_true h) hedge
        · exact ⟨hm, rfl, subset_rfl, hv, of_decide_eq_false h⟩
      · obtain ⟨⟨found, m'⟩, hp, htrue, hfalse⟩ := hsearch v m hm hmarked hsub hv hedge
        cases found with
        | true => exact ⟨(true, m'), by simp [visitSucc, hv, hp], htrue, fun h => absurd h.symm Bool.false_ne_true⟩
        | false =>
          have hexplored := hfalse rfl
          have hnot : v ∉ m'.marked := hexplored.done.2
          exact ⟨(false, m'), by simp [visitSucc, hv, hp, hnot], fun h => absurd h Bool.false_ne_true, fun _ => hexplored⟩
    rw [List.foldlM_cons, hp]
    obtain ⟨found, m'⟩ := p
    cases found with
    | true => exact ⟨_, hstop succs m', htrue, fun h => absurd h.symm Bool.false_ne_true⟩
    | false =>
      have hexplored := hfalse rfl
      obtain ⟨q, hq, hqtrue, hqfalse⟩ :=
        ih m' hexplored.searched (hexplored.marked_eq.trans hmarked) (hsub.trans hexplored.subset)
      refine ⟨q, hq, hqtrue, fun h => ?_⟩
      obtain ⟨hsearched, hqmarked, hqsub, hdone⟩ := hqfalse h
      refine ⟨hsearched, hqmarked, hexplored.subset.trans hqsub, fun u hu => ?_⟩
      rcases List.mem_cons.mp hu with rfl | hu
      · exact hexplored.done.mono (hqmarked.trans (hmarked.symm.trans hexplored.marked_eq.symm)) hqsub
      · exact hdone u hu

/-- A search below a variable that it has not come to yet, by induction on the bound: each search inside it has come
    to one more key. -/
theorem hasCycle_finds (hg : g.Closed) (fuel : ℕ) (hm : Searched g m) (hkey : var ∈ g.keys) (hvar : var ∉ m.visited)
    (hreach : ∀ u ∈ m.marked, Relation.ReflTransGen g.Edge u var) (hfuel : (g.keys \ m.visited).card < fuel) :
    Finds g m var (hasCycle g fuel var m) := by
  induction fuel generalizing m var with
  | zero => cases hfuel
  | succ fuel ih =>
    have hnot : var ∉ m.marked := fun h => hvar (hm.marked_subset h)
    have hreach' : ∀ u ∈ (m.enter var).marked, Relation.ReflTransGen g.Edge u var := by
      intro u hu
      rcases Finset.mem_insert.mp hu with rfl | hu
      · exact .refl
      · exact hreach u hu
    have hsearch : ∀ v m₁, Searched g m₁ → m₁.marked = (m.enter var).marked → (m.enter var).visited ⊆ m₁.visited →
        v ∉ m₁.visited → g.Edge var v → Finds g m₁ v (hasCycle g fuel v m₁) := by
      intro v m₁ hm₁ hmarked hsub hv hedge
      refine ih hm₁ (hg var v hedge) hv (fun u hu => (hreach' u (hmarked ▸ hu)).tail hedge) ?_
      have hlt : (g.keys \ m₁.visited).card < (g.keys \ m.visited).card := by
        refine Finset.card_lt_card (Finset.ssubset_iff_of_subset ?_ |>.mpr ⟨var, ?_, ?_⟩)
        · exact Finset.sdiff_subset_sdiff subset_rfl ((Finset.subset_insert _ _).trans hsub)
        · exact Finset.mem_sdiff.mpr ⟨hkey, hvar⟩
        · exact fun h => (Finset.mem_sdiff.mp h).2 (hsub (Finset.mem_insert_self _ _))
      omega
    obtain ⟨⟨found, m'⟩, hp, htrue, hfalse⟩ := foldlM_visitSucc hsearch hreach' ((g.succs var).sort (· ≤ ·))
      (fun v hv => (Finset.mem_sort _).mp hv) (hm.enter hvar) rfl subset_rfl
    have hrun : hasCycle g (fuel + 1) var m =
        if found then some (true, m') else some (false, { m' with marked := m'.marked.erase var }) := by
      rw [hasCycle, if_pos hvar, Successors.at?, if_pos hkey]
      exact congrArg (· >>= _) hp
    cases found with
    | true => exact ⟨(true, m'), hrun, htrue, fun h => absurd h.symm Bool.false_ne_true⟩
    | false =>
      obtain ⟨hsearched, hmarked, hsub, hdone⟩ := hfalse rfl
      refine ⟨_, hrun, fun h => absurd h Bool.false_ne_true, fun _ => ?_⟩
      exact hsearched.leave hmarked hsub hnot fun v hv => hdone v ((Finset.mem_sort _).mpr hv)

/-! ### The whole search -/

theorem searched_empty : Searched g ⟨∅, ∅⟩ :=
  ⟨subset_rfl, fun _ hu => absurd hu.1 (Finset.notMem_empty _), fun _ hu => absurd hu.1 (Finset.notMem_empty _)⟩

/-- A search that starts between two others: nothing is marked then, and a variable already visited is explored. -/
theorem hasCycle_root (hg : g.Closed) {fuel : ℕ} (hfuel : g.keys.card < fuel) (hm : Searched g m) (hmarked : m.marked = ∅)
    (hkey : var ∈ g.keys) : Finds g m var (hasCycle g fuel var m) := by
  by_cases hvar : var ∈ m.visited
  · obtain ⟨fuel, rfl⟩ := Nat.exists_eq_succ_of_ne_zero (Nat.ne_zero_of_lt hfuel)
    have hsame : ({ m with marked := m.marked.erase var } : Marks) = m := by
      obtain ⟨visited, marked⟩ := m
      obtain rfl : marked = ∅ := hmarked
      rw [Finset.erase_empty]
    refine ⟨(false, m), by rw [hasCycle, if_neg (not_not_intro hvar), hsame], fun h => absurd h Bool.false_ne_true, ?_⟩
    exact fun _ => ⟨hm, rfl, subset_rfl, hvar, by rw [hmarked]; exact Finset.notMem_empty var⟩
  · refine hasCycle_finds hg fuel hm hkey hvar (fun u hu => ?_) ?_
    · rw [hmarked] at hu
      exact absurd hu (Finset.notMem_empty u)
    · exact (Finset.card_le_card Finset.sdiff_subset).trans_lt hfuel

theorem foldlM_visitRoot (hg : g.Closed) {fuel : ℕ} (hfuel : g.keys.card < fuel) (vars : List IndexVar)
    (hvars : ∀ v ∈ vars, v ∈ g.keys) (hm : Searched g m) (hmarked : m.marked = ∅) :
    ∃ p, vars.foldlM (visitRoot g fuel) (false, m) = some p ∧ (p.1 = true → Cyclic g.Edge) ∧
      (p.1 = false → Searched g p.2 ∧ p.2.marked = ∅ ∧ m.visited ⊆ p.2.visited ∧ ∀ v ∈ vars, v ∈ p.2.visited) := by
  have hstop : ∀ (vars : List IndexVar) (m : Marks), vars.foldlM (visitRoot g fuel) (true, m) = some (true, m) := by
    intro vars m
    induction vars with
    | nil => rfl
    | cons v vars ih => exact ih
  induction vars generalizing m with
  | nil => exact ⟨_, rfl, fun h => (Bool.false_ne_true h).elim, fun _ => ⟨hm, hmarked, subset_rfl, by simp⟩⟩
  | cons v vars ih =>
    obtain ⟨⟨found, m'⟩, hp, htrue, hfalse⟩ := hasCycle_root hg hfuel hm hmarked (hvars v List.mem_cons_self)
    have hroot : visitRoot g fuel (false, m) v = some (found, m') := hp
    rw [List.foldlM_cons, hroot]
    cases found with
    | true => exact ⟨_, hstop vars m', htrue, fun h => absurd h.symm Bool.false_ne_true⟩
    | false =>
      have hexplored := hfalse rfl
      obtain ⟨q, hq, hqtrue, hqfalse⟩ := ih (fun u hu => hvars u (List.mem_cons_of_mem _ hu)) hexplored.searched
        (hexplored.marked_eq.trans hmarked)
      refine ⟨q, hq, hqtrue, fun h => ?_⟩
      obtain ⟨hsearched, hqmarked, hqsub, hall⟩ := hqfalse h
      refine ⟨hsearched, hqmarked, hexplored.subset.trans hqsub, fun u hu => ?_⟩
      rcases List.mem_cons.mp hu with rfl | hu
      · exact hqsub hexplored.done.1
      · exact hall u hu

/-- The search through all keys finds a cycle if there is one. -/
theorem foldlM_visitRoot_iff (hg : g.Closed) {fuel : ℕ} (hfuel : g.keys.card < fuel) :
    ∃ p, (g.keys.sort (· ≤ ·)).foldlM (visitRoot g fuel) (false, ⟨∅, ∅⟩) = some p ∧ (p.1 = true ↔ Cyclic g.Edge) := by
  obtain ⟨p, hp, htrue, hfalse⟩ := foldlM_visitRoot hg hfuel (g.keys.sort (· ≤ ·)) (fun v hv => (Finset.mem_sort _).mp hv)
    searched_empty rfl
  refine ⟨p, hp, htrue, ?_⟩
  rintro ⟨u, hu⟩
  by_contra hne
  obtain ⟨hsearched, hmarked, -, hall⟩ := hfalse (Bool.eq_false_iff.mpr hne)
  obtain ⟨v, huv, -⟩ := Relation.TransGen.head'_iff.mp hu
  have hkey : u ∈ g.keys := Successors.mem_keys_of_edge huv
  refine hsearched.acyclic u ⟨hall u ((Finset.mem_sort _).mpr hkey), ?_⟩ hu
  rw [hmarked]
  exact Finset.notMem_empty u

/-- An order goes along the edges of a statement if it goes along the storage orders of its accesses. -/
theorem edges_sorted_iff (lhs : Access) (expr : IndexExpr) {lt : IndexVar → IndexVar → Prop} (hlt : IsStrictTotalOrder IndexVar lt) :
    (∀ u v, (successorsOf lhs.tensorVar.format lhs.indexVars expr).Edge u v → lt u v) ↔
      ∀ a ∈ lhs :: expr.accesses, a.storageOrder.Pairwise lt := by
  have htrans : IsTrans IndexVar lt := inferInstance
  have hchain : ∀ a : Access, a.storageOrder.Pairwise lt ↔
      ∀ u v, (u, v) ∈ a.storageOrder.zip a.storageOrder.tail → lt u v := fun a => by
    rw [← List.isChain_iff_pairwise, isChain_iff_zip_tail]
  constructor
  · exact fun h a ha => (hchain a).mpr fun u v huv => h u v ((edge_successorsOf lhs expr).mpr ⟨a, ha, huv⟩)
  · intro h u v huv
    obtain ⟨a, ha, hedge⟩ := (edge_successorsOf lhs expr).mp huv
    exact (hchain a).mp (h a ha) u v hedge

/-- The statements that contain a transposition are those whose index variables no total order puts in the storage
    order of every access; a bound of the number of variables is enough for the search. -/
theorem containsTranspose_iff (lhs : Access) (expr : IndexExpr) (fuel : ℕ)
    (hfuel : (successorsOf lhs.tensorVar.format lhs.indexVars expr).keys.card < fuel) :
    ∃ found, containsTranspose fuel lhs.tensorVar.format lhs.indexVars expr = some found ∧
      (found = true ↔ ¬ ∃ lt : IndexVar → IndexVar → Prop, IsStrictTotalOrder IndexVar lt ∧
        ∀ a ∈ lhs :: expr.accesses, a.storageOrder.Pairwise lt) := by
  obtain ⟨p, hp, hiff⟩ := foldlM_visitRoot_iff (closed_successorsOf lhs.tensorVar.format lhs.indexVars expr) hfuel
  refine ⟨p.1, ?_, ?_⟩
  · rw [containsTranspose]
    exact congrArg (· >>= _) hp
  · rw [hiff, ← not_not (a := Cyclic _), not_cyclic_iff_exists_order, not_iff_not]
    exact exists_congr fun lt => and_congr_right fun hlt => edges_sorted_iff lhs expr hlt

/-- `A(i,j) = B(j,i)` with both stored by rows. -/
theorem containsTranspose_iff_transposed :
    let a := (TensorVar.dense 0 [5, 5]).access [0, 1] rfl
    let b := (TensorVar.dense 1 [5, 5]).access [1, 0] rfl
    ∃ found, containsTranspose 3 a.tensorVar.format a.indexVars (.access b) = some found ∧
      (found = true ↔ ¬ ∃ lt : IndexVar → IndexVar → Prop, IsStrictTotalOrder IndexVar lt ∧
        ∀ c ∈ [a, b], c.storageOrder.Pairwise lt) :=
  containsTranspose_iff ((TensorVar.dense 0 [5, 5]).access [0, 1] rfl)
    (.access ((TensorVar.dense 1 [5, 5]).access [1, 0] rfl)) 3 (by decide)

end Notation
end Taco
