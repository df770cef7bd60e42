import Taco.Codegen.Coroutine

/-! The iterator delivers what the plain loop nest yields. -/

namespace Taco
namespace Codegen

open IR

/-! ### Labels -/

mutual

theorem afterLabel_eq_none : ∀ (s : Stmt) (k : List Stmt), countYields s = 0 → afterLabel s k = none
  | .block contents, k, h => afterLabelAll_eq_none contents k h
  | .scope s, k, h => afterLabel_eq_none s k h
  | .for _ _ _ _ s, _, h => afterLabel_eq_none s _ h
  | .while _ s, _, h => afterLabel_eq_none s _ h
  | .yield .., _, h => absurd h Nat.one_ne_zero
  | .ifThenElse _ s none, k, h => afterLabel_eq_none s k h
  | .ifThenElse _ s (some t), k, h => by
    rw [countYields, Nat.add_eq_zero_iff] at h
    rw [afterLabel, afterLabel_eq_none s k h.1, afterLabel_eq_none t k h.2, Option.none_or]
  | .case clauses _, k, h => afterLabelClauses_eq_none clauses k h
  | .switch clauses _, k, h => afterLabelClauses_eq_none clauses k h
  | .varDecl .., _, _ => rfl
  | .assign .., _, _ => rfl
  | .store .., _, _ => rfl

theorem afterLabelAll_eq_none : ∀ (ss k : List Stmt), countYieldsAll ss = 0 → afterLabelAll ss k = none
  | [], _, _ => rfl
  | s :: ss, k, h => by
    rw [countYieldsAll, Nat.add_eq_zero_iff] at h
    rw [afterLabelAll, afterLabel_eq_none s _ h.1, afterLabelAll_eq_none ss k h.2, Option.none_or]

theorem afterLabelClauses_eq_none : ∀ (clauses : List (Expr × Stmt)) (k : List Stmt), countYieldsClauses clauses = 0 →
    afterLabelClauses clauses k = none
  | [], _, _ => rfl
  | (_, s) :: clauses, k, h => by
    rw [countYieldsClauses, Nat.add_eq_zero_iff] at h
    rw [afterLabelClauses, afterLabel_eq_none s k h.1, afterLabelClauses_eq_none clauses k h.2, Option.none_or]

end

mutual

theorem exists_afterLabel : ∀ (s : Stmt) (k : List Stmt), countYields s ≠ 0 → ∃ l, afterLabel s k = some l
  | .block contents, k, h => exists_afterLabelAll contents k h
  | .scope s, k, h => exists_afterLabel s k h
  | .for _ _ _ _ s, _, h => exists_afterLabel s _ h
  | .while _ s, _, h => exists_afterLabel s _ h
  | .yield .., k, _ => ⟨k, rfl⟩
  | .ifThenElse _ s none, k, h => exists_afterLabel s k h
  | .ifThenElse _ s (some t), k, h => by
    rw [afterLabel]
    by_cases hs : countYields s = 0
    · rw [afterLabel_eq_none s k hs, Option.none_or]
      exact exists_afterLabel t k (by rwa [countYields, hs, Nat.zero_add] at h)
    · obtain ⟨l, hl⟩ := exists_afterLabel s k hs
      exact ⟨l, by rw [hl, Option.some_or]⟩
  | .case clauses _, k, h => exists_afterLabelClauses clauses k h
  | .switch clauses _, k, h => exists_afterLabelClauses clauses k h
  | .varDecl .., _, h => absurd rfl h
  | .assign .., _, h => absurd rfl h
  | .store .., _, h => absurd rfl h

theorem exists_afterLabelAll : ∀ (ss k : List Stmt), countYieldsAll ss ≠ 0 → ∃ l, afterLabelAll ss k = some l
  | [], _, h => absurd rfl h
  | s :: ss, k, h => by
    rw [afterLabelAll]
    by_cases hs : countYields s = 0
    · rw [afterLabel_eq_none s _ hs, Option.none_or]
      exact exists_afterLabelAll ss k (by rwa [countYieldsAll, hs, Nat.zero_add] at h)
    · obtain ⟨l, hl⟩ := exists_afterLabel s (ss ++ k) hs
      exact ⟨l, by rw [hl, Option.some_or]⟩

theorem exists_afterLabelClauses : ∀ (clauses : List (Expr × Stmt)) (k : List Stmt), countYieldsClauses clauses ≠ 0 →
    ∃ l, afterLabelClauses clauses k = some l
  | [], _, h => absurd rfl h
  | (_, s) :: clauses, k, h => by
    rw [afterLabelClauses]
    by_cases hs : countYields s = 0
    · rw [afterLabel_eq_none s k hs, Option.none_or]
      exact exists_afterLabelClauses clauses k (by rwa [countYieldsClauses, hs, Nat.zero_add] at h)
    · obtain ⟨l, hl⟩ := exists_afterLabel s k hs
      exact ⟨l, by rw [hl, Option.some_or]⟩

end

/-- A statement has at most one yield, and `l` is left after its label. -/
def LeadsTo (l : List Stmt) (s : Stmt) (k : List Stmt) : Prop :=
  countYields s ≤ 1 ∧ (countYields s ≠ 0 → afterLabel s k = some l)

/-- Wherever a yield is reached, `l` is left after it. -/
def Leads (l : List Stmt) : List Stmt → Prop
  | [] => True
  | s :: k => LeadsTo l s k ∧ Leads l k

section Leads

variable {l k ss : List Stmt} {s t : Stmt} {clauses : List (Expr × Stmt)}

theorem leads_append (hone : countYieldsAll ss ≤ 1) (hafter : countYieldsAll ss ≠ 0 → afterLabelAll ss k = some l)
    (hk : Leads l k) : Leads l (ss ++ k) := by
  induction ss with
  | nil => exact hk
  | cons s ss ih =>
    rw [countYieldsAll] at hone hafter
    rw [afterLabelAll] at hafter
    by_cases hs : countYields s = 0
    · rw [hs, Nat.zero_add, afterLabel_eq_none s _ hs, Option.none_or] at hafter
      exact ⟨⟨by omega, fun h => absurd hs h⟩, ih (by omega) hafter⟩
    · obtain ⟨l', hl'⟩ := exists_afterLabel s (ss ++ k) hs
      have hrest : countYieldsAll ss = 0 := by omega
      rw [hl', Option.some_or] at hafter
      exact ⟨⟨by omega, fun _ => hl'.trans (hafter (by omega))⟩, ih (by omega) fun h => absurd hrest h⟩

theorem leadsTo_then (h : LeadsTo l (.ifThenElse c s (some t)) k) : LeadsTo l s k := by
  obtain ⟨hone, hafter⟩ := h
  rw [countYields] at hone hafter
  refine ⟨by omega, fun hs => ?_⟩
  obtain ⟨l', hl'⟩ := exists_afterLabel s k hs
  rw [afterLabel, hl', Option.some_or] at hafter
  exact hl'.trans (hafter (by omega))

theorem leadsTo_otherwise (h : LeadsTo l (.ifThenElse c s (some t)) k) : LeadsTo l t k := by
  obtain ⟨hone, hafter⟩ := h
  rw [countYields] at hone hafter
  refine ⟨by omega, fun ht => ?_⟩
  rw [afterLabel, afterLabel_eq_none s k (by omega), Option.none_or] at hafter
  exact hafter (by omega)

theorem leadsTo_clause (hone : countYieldsClauses clauses ≤ 1)
    (hafter : countYieldsClauses clauses ≠ 0 → afterLabelClauses clauses k = some l) {c : Expr}
    (hmem : (c, s) ∈ clauses) : LeadsTo l s k := by
  induction clauses with
  | nil => cases hmem
  | cons clause clauses ih =>
    obtain ⟨c', s'⟩ := clause
    rw [countYieldsClauses] at hone hafter
    rw [afterLabelClauses] at hafter
    rcases List.mem_cons.mp hmem with heq | hmem
    · cases heq
      refine ⟨by omega, fun hs => ?_⟩
      obtain ⟨l', hl'⟩ := exists_afterLabel s k hs
      rw [hl', Option.some_or] at hafter
      exact hl'.trans (hafter (by omega))
    · refine ih (by omega) (fun hclauses => ?_) hmem
      rw [afterLabel_eq_none s' k (by omega), Option.none_or] at hafter
      exact hafter (by omega)

theorem leadsTo_forLoop {v e : Var} {start inc : Expr} (h : LeadsTo l (.for v start e inc s) k) :
    LeadsTo l (forLoop v e inc s) k := by
  obtain ⟨hone, hafter⟩ := h
  have hcount : countYields (forLoop v e inc s) = countYields s := by
    rw [forLoop, countYields, countYields, countYieldsAll, countYieldsAll, countYieldsAll, countYields, Nat.add_zero]
  refine ⟨hcount ▸ hone, fun hs => ?_⟩
  have hlabel := hafter (hcount ▸ hs)
  rw [forLoop, afterLabel, afterLabel, afterLabelAll]
  rw [afterLabel] at hlabel
  exact (congrArg (Option.or · _) hlabel).trans (Option.some_or)

theorem leads_while {c : Expr} (h : Leads l (.while c s :: k)) : Leads l (s :: .while c s :: k) :=
  ⟨⟨h.1.1, fun hs => h.1.2 hs⟩, h⟩

end Leads

/-! ### Steps -/

theorem exists_clause_of_firstMatch {m : Memory} {alwaysMatch : Bool} {s : Stmt} :
    ∀ {clauses : List (Expr × Stmt)}, firstMatch m alwaysMatch clauses = some (some s) → ∃ c, (c, s) ∈ clauses
  | [], h => by cases h
  | (c, t) :: clauses, h => by
    rw [firstMatch] at h
    split_ifs at h
    · cases h
      exact ⟨c, List.mem_cons_self⟩
    · obtain ⟨x, -, h⟩ := Option.bind_eq_some_iff.mp h
      split_ifs at h
      · cases h
        exact ⟨c, List.mem_cons_self⟩
      · obtain ⟨c', hmem⟩ := exists_clause_of_firstMatch h
        exact ⟨c', List.mem_cons_of_mem _ hmem⟩

theorem exists_clause_of_matchingCase {m : Memory} {x : Val} {s : Stmt} :
    ∀ {clauses : List (Expr × Stmt)}, matchingCase m x clauses = some (some s) → ∃ c, (c, s) ∈ clauses
  | [], h => by cases h
  | (c, t) :: clauses, h => by
    obtain ⟨y, -, h⟩ := Option.bind_eq_some_iff.mp h
    split_ifs at h
    · cases h
      exact ⟨c, List.mem_cons_self⟩
    · obtain ⟨c', hmem⟩ := exists_clause_of_matchingCase h
      exact ⟨c', List.mem_cons_of_mem _ hmem⟩

theorem withinAll_iff {V : List Var} {order : ℕ} {ss : List Stmt} :
    WithinAll V order ss ↔ ∀ s ∈ ss, Within V order s := by
  induction ss with
  | nil => simp [WithinAll]
  | cons s ss ih => rw [WithinAll, ih, List.forall_mem_cons]

theorem within_of_mem {V : List Var} {order : ℕ} {clauses : List (Expr × Stmt)} (h : WithinClauses V order clauses)
    {c : Expr} {s : Stmt} (hmem : (c, s) ∈ clauses) : Within V order s := by
  induction clauses with
  | nil => cases hmem
  | cons clause clauses ih =>
    rcases List.mem_cons.mp hmem with heq | hmem
    · cases heq
      exact h.1
    · exact ih h.2 hmem

/-- The coordinates, with the variables that hold them, and the value of an element. -/
abbrev Element := List (Var × Val) × Val

/-- The elements that a function with a tensor of the order yields. -/
def Element.Fits (order : ℕ) (e : Element) : Prop := e.1.length = order ∧ ∀ p ∈ e.1, p.1.type = .int .w32

/-- What is left of an iterate function with the variables `V`: wherever its yield is reached, `l` is left after it. -/
structure Resumable (V : List Var) (order : ℕ) (l k : List Stmt) : Prop where
  leads : Leads l k
  within : ∀ s ∈ k, Within V order s

namespace Resumable

variable {V : List Var} {order : ℕ} {l k k' : List Stmt} {s : Stmt} {m m' : Memory}

theorem tail (h : Resumable V order l (s :: k)) : Resumable V order l k :=
  ⟨h.leads.2, fun t ht => h.within t (List.mem_cons_of_mem s ht)⟩

theorem head (h : Resumable V order l (s :: k)) : Within V order s := h.within s List.mem_cons_self

theorem cons (h : Resumable V order l k) (hlead : LeadsTo l s k) (hs : Within V order s) :
    Resumable V order l (s :: k) :=
  ⟨⟨hlead, h.leads⟩, List.forall_mem_cons.mpr ⟨hs, h.within⟩⟩

/-- Clauses lead to `l` wherever the statement with them does. -/
theorem clause {clauses : List (Expr × Stmt)} (h : Resumable V order l k) (hone : countYieldsClauses clauses ≤ 1)
    (hafter : countYieldsClauses clauses ≠ 0 → afterLabelClauses clauses k = some l)
    (hclauses : WithinClauses V order clauses) {b : Option Stmt} (hb : ∀ s, b = some s → ∃ c, (c, s) ∈ clauses) :
    Resumable V order l (b.toList ++ k) := by
  cases b with
  | none => exact h
  | some s =>
    obtain ⟨c, hmem⟩ := hb s rfl
    exact h.cons (leadsTo_clause hone hafter hmem) (within_of_mem hclauses hmem)

/-- A step keeps the variables that are not in `V`. -/
theorem next (h : Resumable V order l k) (hstep : step k m = some (.next k' m')) :
    Resumable V order l k' ∧ ∀ v ∉ V, m'.vars v = m.vars v := by
  have hset : ∀ {v : Var} (x : Val), v ∈ V → ∀ u ∉ V, (setVar m v x).vars u = m.vars u := by
    intro v x hv u hu
    exact Function.update_of_ne (fun huv : u = v => hu (huv ▸ hv)) _ _
  cases k with
  | nil => cases hstep
  | cons s k =>
    have hhead := h.head
    have hlead := h.leads.1
    cases s with
    | block contents =>
      cases hstep
      refine ⟨⟨leads_append hlead.1 hlead.2 h.leads.2, fun s hs => ?_⟩, fun _ _ => rfl⟩
      rcases List.mem_append.mp hs with hs | hs
      · exact withinAll_iff.mp hhead s hs
      · exact h.tail.within s hs
    | scope s =>
      cases hstep
      exact ⟨h.tail.cons ⟨hlead.1, hlead.2⟩ hhead, fun _ _ => rfl⟩
    | varDecl v rhs | assign v rhs =>
      obtain ⟨x, -, heq⟩ := Option.map_eq_some_iff.mp hstep
      cases heq
      exact ⟨h.tail, hset x hhead⟩
    | store arr loc data =>
      obtain ⟨i, -, hstep⟩ := Option.bind_eq_some_iff.mp hstep
      obtain ⟨x, -, heq⟩ := Option.map_eq_some_iff.mp hstep
      cases heq
      exact ⟨h.tail, fun _ _ => rfl⟩
    | yield coords val =>
      obtain ⟨x, -, heq⟩ := Option.map_eq_some_iff.mp hstep
      cases heq
    | ifThenElse cond s otherwise =>
      obtain ⟨x, -, heq⟩ := Option.map_eq_some_iff.mp hstep
      cases heq
      refine ⟨?_, fun _ _ => rfl⟩
      cases otherwise with
      | none =>
        split_ifs
        · exact h.tail.cons ⟨hlead.1, hlead.2⟩ hhead
        · exact h.tail
      | some t =>
        split_ifs
        · exact h.tail.cons (leadsTo_then hlead) hhead.1
        · exact h.tail.cons (leadsTo_otherwise hlead) hhead.2
    | case clauses alwaysMatch =>
      obtain ⟨b, hb, heq⟩ := Option.map_eq_some_iff.mp hstep
      cases heq
      exact ⟨h.tail.clause hlead.1 hlead.2 hhead fun s hs => exists_clause_of_firstMatch (hs ▸ hb), fun _ _ => rfl⟩
    | «switch» cases controlExpr =>
      obtain ⟨x, -, hstep⟩ := Option.bind_eq_some_iff.mp hstep
      obtain ⟨b, hb, heq⟩ := Option.map_eq_some_iff.mp hstep
      cases heq
      exact ⟨h.tail.clause hlead.1 hlead.2 hhead fun s hs => exists_clause_of_matchingCase (hs ▸ hb), fun _ _ => rfl⟩
    | «for» v start e inc body =>
      obtain ⟨x, -, heq⟩ := Option.map_eq_some_iff.mp hstep
      cases heq
      exact ⟨h.tail.cons (leadsTo_forLoop hlead) ⟨hhead.2, hhead.1, trivial⟩, hset x hhead.1⟩
    | «while» cond body =>
      obtain ⟨x, -, heq⟩ := Option.map_eq_some_iff.mp hstep
      cases heq
      refine ⟨?_, fun _ _ => rfl⟩
      split_ifs
      · exact ⟨leads_while h.leads, List.forall_mem_cons.mpr ⟨hhead, h.within⟩⟩
      · exact h.tail

theorem yielded (h : Resumable V order l k) {coords : List (Var × Val)} {val : Val}
    (hstep : step k m = some (.yielded coords val k' m')) :
    k' = l ∧ m' = m ∧ Resumable V order l l ∧ Element.Fits order (coords, val) := by
  cases k with
  | nil => cases hstep
  | cons s k =>
    cases s with
    | yield vs rhs =>
      obtain ⟨x, -, heq⟩ := Option.map_eq_some_iff.mp hstep
      cases heq
      have hl : k' = l := Option.some.inj (h.leads.1.2 Nat.one_ne_zero)
      refine ⟨hl, rfl, hl ▸ h.tail, (List.length_map _).trans h.head.1, fun p hp => ?_⟩
      obtain ⟨v, hv, rfl⟩ := List.mem_map.mp hp
      exact h.head.2 v hv
    | block | scope => cases hstep
    | varDecl | assign | ifThenElse | case | «for» | «while» =>
      obtain ⟨x, -, heq⟩ := Option.map_eq_some_iff.mp hstep
      cases heq
    | store | «switch» =>
      obtain ⟨x, -, hstep⟩ := Option.bind_eq_some_iff.mp hstep
      obtain ⟨y, -, heq⟩ := Option.map_eq_some_iff.mp hstep
      cases heq

end Resumable

/-! ### Buffers -/

/-- The buffers hold an element at a position. -/
def Buffers.Holds (order : ℕ) (buffers : Buffers) (n : ℕ) (e : Element) : Prop :=
  ((List.range order).map fun mode => buffers.coords (4 * (order * n + mode))) = e.1.map Prod.snd ∧
    buffers.vals n = e.2

/-- The buffers hold elements from a position on. -/
def Buffers.HoldsAll (order : ℕ) (buffers : Buffers) : ℕ → List Element → Prop
  | _, [] => True
  | n, e :: es => buffers.Holds order n e ∧ buffers.HoldsAll order (n + 1) es

section Buffers

variable {order n : ℕ} {buffers : Buffers} {coords : List (Var × Val)} {val : Val}

theorem storeCoords_of_lt {a address : ℕ} (h : a < address) (buffer : ℕ → Val) :
    storeCoords address coords buffer a = buffer a := by
  induction coords generalizing address buffer with
  | nil => rfl
  | cons p coords ih =>
    rw [storeCoords, ih (Nat.lt_add_right _ h), Function.update_of_ne (Nat.ne_of_lt h)]

theorem getNumBytes_eq {v : Var} (h : v.type = .int .w32) : getNumBytes v = 4 := by rw [getNumBytes, h]; rfl

theorem map_storeCoords (h : ∀ p ∈ coords, p.1.type = .int .w32) (address : ℕ) (buffer : ℕ → Val) :
    ((List.range coords.length).map fun mode => storeCoords address coords buffer (address + 4 * mode)) =
      coords.map Prod.snd := by
  induction coords generalizing address buffer with
  | nil => rfl
  | cons p coords ih =>
    have hp := getNumBytes_eq (h p List.mem_cons_self)
    have hfirst : storeCoords (address + 4) coords (Function.update buffer address p.2) address = p.2 := by
      rw [storeCoords_of_lt (Nat.lt_add_of_pos_right (by decide)), Function.update_self]
    rw [List.length_cons, List.range_succ_eq_map, List.map_cons, List.map_map, storeCoords, hp, Nat.mul_zero,
      Nat.add_zero address, hfirst, List.map_cons, ← ih fun q hq => h q (List.mem_cons_of_mem p hq)]
    refine congrArg (List.cons _) (List.map_congr_left fun mode _ => ?_)
    exact congrArg (storeCoords _ _ _) (by omega)

theorem stride_eq (h : ∀ p ∈ coords, p.1.type = .int .w32) :
    (coords.map fun p => getNumBytes p.1).sum = 4 * coords.length := by
  rw [List.map_congr_left fun p hp => getNumBytes_eq (h p hp), List.map_const', List.sum_replicate, smul_eq_mul,
    Nat.mul_comm]

theorem holds_push {e : Element} (he : e.Fits order) : (buffers.push n e.1 e.2).Holds order n e := by
  obtain ⟨hlength, htype⟩ := he
  refine ⟨?_, Function.update_self _ _ _⟩
  rw [← hlength, ← map_storeCoords htype (4 * e.1.length * n) buffers.coords]
  refine List.map_congr_left fun mode _ => ?_
  rw [Buffers.push, stride_eq htype, Nat.mul_add, ← Nat.mul_assoc]

theorem Buffers.Holds.push {i : ℕ} {e e' : Element} (h : buffers.Holds order i e') (he : e.Fits order) (hi : i < n) :
    (buffers.push n e.1 e.2).Holds order i e' := by
  obtain ⟨hlength, htype⟩ := he
  refine ⟨h.1 ▸ List.map_congr_left fun mode hmode => ?_, h.2 ▸ Function.update_of_ne (Nat.ne_of_lt hi) _ _⟩
  have hlt : order * i + mode < order * n := calc
    order * i + mode < order * (i + 1) := Nat.add_lt_add_left (List.mem_range.mp hmode) _
    _ ≤ order * n := Nat.mul_le_mul_left order hi
  rw [Buffers.push, stride_eq htype, hlength]
  exact storeCoords_of_lt (by rw [Nat.mul_assoc]; omega) _

end Buffers

/-! ### Calls -/

/-- What a call has done, from a point with `n` elements in the buffers: the elements of `taken` have been stored, and
    those of `rest` are left. -/
structure Filled (V : List Var) (order : ℕ) (l : List Stmt) (m : Memory) (n : ℕ) (buffers : Buffers) (exit : Exit)
    (taken rest : List Element) : Prop where
  bufSize : exit.bufSize = n + taken.length
  stored : exit.buffers.HoldsAll order n taken
  kept : ∀ i e, i < n → buffers.Holds order i e → exit.buffers.Holds order i e
  inputs : ∀ v ∉ V, exit.mem.vars v = m.vars v
  left : if exit.full then taken ≠ [] ∧ Resumable V order l l ∧ Yields l exit.mem rest else rest = []

section Calls

variable {V : List Var} {order capacity : ℕ} {l k : List Stmt} {m : Memory} {out : List Element}

/-- A point of the function is reached with any number of elements in the buffers. -/
theorem exists_filled (hyields : Yields k m out) (hk : Resumable V order l k) (n : ℕ) (buffers : Buffers) :
    ∃ fuel exit taken rest, fill fuel capacity k m n buffers = some exit ∧ out = taken ++ rest ∧
      Filled V order l m n buffers exit taken rest := by
  induction hyields generalizing n buffers with
  | @finished k m hstep =>
    refine ⟨1, ⟨false, m, n, buffers⟩, [], [], by rw [fill, hstep], rfl, ?_⟩
    refine ⟨rfl, trivial, fun _ _ _ h => h, fun _ _ => rfl, ?_⟩
    rw [if_neg Bool.false_ne_true]
  | @next k k' m m' out hstep hyields ih =>
    obtain ⟨hk', hvars⟩ := hk.next hstep
    obtain ⟨fuel, exit, taken, rest, hfill, hout, h⟩ := ih hk' n buffers
    exact ⟨fuel + 1, exit, taken, rest, by rw [fill, hstep]; exact hfill, hout,
      { h with inputs := fun v hv => (h.inputs v hv).trans (hvars v hv) }⟩
  | @yielded k k' m m' coords val out hstep hyields ih =>
    obtain ⟨rfl, hmem, hl, hfits⟩ := hk.yielded hstep
    by_cases hn : n + 1 = capacity
    · refine ⟨1, ⟨true, m', n + 1, buffers.push n coords val⟩, [(coords, val)], out, ?_, rfl, rfl,
        ⟨holds_push hfits, trivial⟩, fun i e hi h => h.push hfits hi, fun v _ => by rw [hmem], ?_⟩
      · simp only [fill, hstep, if_pos hn]
      · rw [if_pos rfl]
        exact ⟨List.cons_ne_nil _ _, hl, hyields⟩
    · obtain ⟨fuel, exit, taken, rest, hfill, hout, h⟩ := ih hl (n + 1) (buffers.push n coords val)
      refine ⟨fuel + 1, exit, (coords, val) :: taken, rest, ?_, congrArg (List.cons _) hout, ?_⟩
      · simp only [fill, hstep, if_neg hn]
        exact hfill
      · refine ⟨?_, ⟨h.kept n _ (Nat.lt_succ_self n) (holds_push hfits), h.stored⟩,
          fun i e hi he => h.kept i e (Nat.lt_succ_of_lt hi) (he.push hfits hi),
          fun v hv => (h.inputs v hv).trans (by rw [hmem]), ?_⟩
        · rw [h.bufSize, List.length_cons]
          omega
        · have hleft := h.left
          split_ifs at hleft ⊢
          · exact ⟨List.cons_ne_nil _ _, hleft.2⟩
          · exact hleft

theorem fill_mono {fuel fuel' : ℕ} (hle : fuel ≤ fuel') {k : List Stmt} {m : Memory} {n : ℕ} {buffers : Buffers}
    {exit : Exit} (h : fill fuel capacity k m n buffers = some exit) :
    fill fuel' capacity k m n buffers = some exit := by
  induction fuel generalizing fuel' k m n buffers with
  | zero => cases h
  | succ fuel ih =>
    cases fuel' with
    | zero => exact absurd hle (Nat.not_succ_le_zero fuel)
    | succ fuel' =>
      have hle := Nat.le_of_succ_le_succ hle
      rw [fill] at h ⊢
      cases hstep : step k m with
      | none => simp only [hstep, reduceCtorEq] at h
      | some outcome =>
        rw [hstep] at h
        cases outcome with
        | finished => exact h
        | next k' m' => exact ih hle h
        | yielded coords val k' m' =>
          dsimp only at h ⊢
          split_ifs at h ⊢
          · exact h
          · exact ih hle h

end Calls

/-- A call with a context that the function has left: what the function yields from there on is `out`. -/
inductive Ready (I : Iteration) : ℕ → Option Context → (ArrayVar → ℤ → Val) → List Element → Prop
  | start {arrays : ArrayVar → ℤ → Val} {out : List Element} :
    Yields [I.body] ⟨I.entry 0, arrays⟩ out → Ready I 0 none arrays out
  | suspended {n : ℕ} {locals : Var → Val} {l : List Stmt} {arrays : ArrayVar → ℤ → Val} {out : List Element} :
    afterLabel I.body [] = some l → Resumable (localVars I.body) I.tensorOrder l l →
    Yields l ⟨fun v => if v ∈ localVars I.body then locals v else I.entry 0 v, arrays⟩ out →
    Ready I n (some ⟨0, locals⟩) arrays out
  | finished {n : ℕ} {locals : Var → Val} {arrays : ArrayVar → ℤ → Val} :
    Ready I n (some ⟨countYields I.body, locals⟩) arrays []

section Calls

variable (I : Iteration)

theorem Iteration.resumable {l : List Stmt} (hl : afterLabel I.body [] = some l) :
    Resumable (localVars I.body) I.tensorOrder l [I.body] :=
  ⟨⟨⟨I.countYields_eq.le, fun _ => hl⟩, trivial⟩, List.forall_mem_singleton.mpr I.within⟩

/-- The function from a point on stores what it yields, and is left so that a call continues with the rest. -/
theorem Iteration.exists_fill {l k : List Stmt} {m : Memory} {out : List Element}
    (hl : afterLabel I.body [] = some l) (hk : Resumable (localVars I.body) I.tensorOrder l k)
    (hinputs : ∀ v ∉ localVars I.body, m.vars v = I.entry 0 v) (hyields : Yields k m out) (buffers : Buffers) :
    ∃ fuel exit taken rest, fill fuel I.bufferCapacity k m 0 buffers = some exit ∧ out = taken ++ rest ∧
      exit.bufSize = taken.length ∧ exit.buffers.HoldsAll I.tensorOrder 0 taken ∧ (taken = [] → rest = []) ∧
      ∀ n locals, Ready I n (some (if exit.full then ⟨0, exit.mem.vars⟩ else ⟨countYields I.body, locals⟩))
        exit.mem.arrays rest := by
  obtain ⟨fuel, exit, taken, rest, hfill, hout, h⟩ := exists_filled hyields hk 0 buffers
  have hleft := h.left
  refine ⟨fuel, exit, taken, rest, hfill, hout, h.bufSize.trans (Nat.zero_add _), h.stored, fun htaken => ?_,
    fun n locals => ?_⟩
  · split_ifs at hleft
    · exact absurd htaken hleft.1
    · exact hleft
  · split_ifs at hleft ⊢
    · obtain ⟨-, hresume, hrest⟩ := hleft
      refine .suspended hl hresume ?_
      have hmem : (fun v => if v ∈ localVars I.body then exit.mem.vars v else I.entry 0 v) = exit.mem.vars := by
        funext v
        split_ifs with hv
        · rfl
        · exact (hinputs v hv).symm.trans (h.inputs v hv).symm
      rwa [hmem]
    · rw [hleft]
      exact .finished

/-- A call stores what comes next, and leaves a context for the rest. -/
theorem Ready.exists_call {n : ℕ} {ctx : Option Context} {arrays : ArrayVar → ℤ → Val} {out : List Element}
    (h : Ready I n ctx arrays out) (buffers : Buffers) :
    ∃ fuel ret taken rest, call fuel I.bufferCapacity I.body ctx ⟨I.entry n, arrays⟩ buffers = some ret ∧
      out = taken ++ rest ∧ ret.bufSize = taken.length ∧ ret.buffers.HoldsAll I.tensorOrder 0 taken ∧
      (taken = [] → rest = []) ∧ (taken ≠ [] → Ready I (n + 1) ret.ctx ret.arrays rest) := by
  obtain ⟨l, hl⟩ := exists_afterLabel I.body [] (I.countYields_eq ▸ Nat.one_ne_zero)
  cases h with
  | start hyields =>
    obtain ⟨fuel, exit, taken, rest, hfill, hout, hsize, hholds, hnil, hready⟩ :=
      I.exists_fill hl (I.resumable hl) (fun _ _ => rfl) hyields buffers
    exact ⟨fuel, exit.toReturn I.body (I.entry 0), taken, rest, congrArg (Option.map _) hfill, hout, hsize, hholds,
      hnil, fun _ => hready 1 (I.entry 0)⟩
  | @suspended _ locals l' _ _ hl' hresume hyields =>
    obtain rfl : l = l' := Option.some.inj (hl.symm.trans hl')
    have hvars : (fun v => if v ∈ localVars I.body then locals v else I.entry n v) =
        fun v => if v ∈ localVars I.body then locals v else I.entry 0 v := by
      funext v
      split_ifs with hv
      · rfl
      · exact I.inputs n v hv
    obtain ⟨fuel, exit, taken, rest, hfill, hout, hsize, hholds, hnil, hready⟩ :=
      I.exists_fill hl hresume (fun v hv => if_neg hv) hyields buffers
    refine ⟨fuel, exit.toReturn I.body locals, taken, rest, ?_, hout, hsize, hholds, hnil,
      fun _ => hready (n + 1) locals⟩
    rw [call, hvars, if_neg (I.countYields_eq ▸ Nat.zero_ne_one), if_pos rfl, hl, Option.bind_some, hfill,
      Option.map_some]
  | finished =>
    refine ⟨0, ⟨none, arrays, buffers, 0⟩, [], [], ?_, rfl, rfl, trivial, fun _ => rfl, fun h => absurd rfl h⟩
    simp only [call, if_true]

theorem call_mono {fuel fuel' capacity : ℕ} (hle : fuel ≤ fuel') {body : Stmt} {ctx : Option Context} {m : Memory}
    {buffers : Buffers} {ret : Return} (h : call fuel capacity body ctx m buffers = some ret) :
    call fuel' capacity body ctx m buffers = some ret := by
  cases ctx with
  | none =>
    obtain ⟨exit, hexit, rfl⟩ := Option.map_eq_some_iff.mp h
    exact Option.map_eq_some_iff.mpr ⟨exit, fill_mono hle hexit, rfl⟩
  | some ctx =>
    simp only [call] at h ⊢
    split_ifs at h ⊢
    · exact h
    · obtain ⟨k, hk, h⟩ := Option.bind_eq_some_iff.mp h
      obtain ⟨exit, hexit, rfl⟩ := Option.map_eq_some_iff.mp h
      exact Option.bind_eq_some_iff.mpr ⟨k, hk, Option.map_eq_some_iff.mpr ⟨exit, fill_mono hle hexit, rfl⟩⟩

end Calls

/-! ### The iterator -/

/-- What an iterator is still to deliver: the rest of its buffers, and what later calls yield. -/
inductive Pending (I : Iteration) : ConstIterator → List Element → Prop
  | done {it : ConstIterator} : it.bufferSize = 0 → Pending I it []
  | more {it : ConstIterator} {e : Element} {es rest : List Element} :
    it.coordinates = I.tensorOrder * it.bufferPos → it.value = it.buffers.vals it.bufferPos →
    it.bufferPos + (es.length + 1) = it.bufferSize → it.buffers.HoldsAll I.tensorOrder it.bufferPos (e :: es) →
    Ready I it.chunks it.ctx it.arrays rest → Pending I it (e :: (es ++ rest))

namespace ConstIterator

variable {I : Iteration} {it it' : ConstIterator} {out : List Element}

theorem exists_refill (h : Ready I it.chunks it.ctx it.arrays out) :
    ∃ fuel it', it.refill I fuel = some it' ∧ Pending I it' out := by
  obtain ⟨fuel, ret, taken, rest, hcall, rfl, hsize, hholds, hnil, hready⟩ := h.exists_call I it.buffers
  refine ⟨fuel, _, congrArg (Option.map _) hcall, ?_⟩
  cases taken with
  | nil =>
    rw [hnil rfl]
    exact .done hsize
  | cons e es =>
    exact .more (Nat.mul_zero _).symm rfl ((Nat.zero_add _).trans hsize.symm) hholds (hready (List.cons_ne_nil e es))

theorem exists_increment {e : Element} (h : Pending I it (e :: out)) :
    ∃ fuel it', it.increment I fuel = some it' ∧ Pending I it' out := by
  cases h with
  | @more _ es rest hcoords hvalue hsize hholds hready =>
    cases es with
    | nil =>
      obtain ⟨fuel, it', hrefill, h⟩ := exists_refill hready
      have hend : it.bufferPos + 1 ≥ it.bufferSize := hsize.symm.le
      exact ⟨fuel, it', (if_pos hend).trans hrefill, h⟩
    | cons e' es =>
      have hin : ¬it.bufferPos + 1 ≥ it.bufferSize := by
        rw [← hsize, List.length_cons]
        omega
      refine ⟨0, _, if_neg hin, .more ?_ rfl ?_ hholds.2 hready⟩
      · rw [hcoords, Nat.mul_succ]
      · rw [← hsize, List.length_cons, Nat.add_assoc, Nat.add_comm 1]

theorem deref_eq {e : Element} (h : Pending I it (e :: out)) : it.deref I = (e.1.map Prod.snd, e.2) := by
  cases h with
  | more hcoords hvalue hsize hholds hready =>
    obtain ⟨⟨hcoord, hval⟩, -⟩ := hholds
    rw [deref, hcoords, hvalue, hval, hcoord]

theorem isEnd_eq {e : Element} (h : Pending I it (e :: out)) : it.isEnd = false := by
  cases h with
  | more hcoords hvalue hsize hholds hready => exact decide_eq_false (hsize ▸ Nat.succ_ne_zero _)

theorem increment_mono {fuel fuel' : ℕ} (hle : fuel ≤ fuel') (h : it.increment I fuel = some it') :
    it.increment I fuel' = some it' := by
  rw [increment] at h ⊢
  split_ifs at h ⊢
  · obtain ⟨ret, hret, rfl⟩ := Option.map_eq_some_iff.mp h
    exact Option.map_eq_some_iff.mpr ⟨ret, call_mono hle hret, rfl⟩
  · exact h

theorem deliver_mono {fuel fuel' : ℕ} (hle : fuel ≤ fuel') {out : List (List Val × Val)}
    (h : it.deliver I fuel = some out) : it.deliver I fuel' = some out := by
  induction fuel generalizing fuel' it out with
  | zero => cases h
  | succ fuel ih =>
    cases fuel' with
    | zero => exact absurd hle (Nat.not_succ_le_zero fuel)
    | succ fuel' =>
      have hle := Nat.le_of_succ_le_succ hle
      rw [deliver] at h ⊢
      split_ifs at h ⊢
      · exact h
      · obtain ⟨next, hnext, h⟩ := Option.bind_eq_some_iff.mp h
        obtain ⟨rest, hrest, rfl⟩ := Option.map_eq_some_iff.mp h
        exact Option.bind_eq_some_iff.mpr
          ⟨next, increment_mono hle hnext, Option.map_eq_some_iff.mpr ⟨rest, ih hle hrest, rfl⟩⟩

theorem exists_deliver (h : Pending I it out) :
    ∃ fuel, it.deliver I fuel = some (out.map fun e => (e.1.map Prod.snd, e.2)) := by
  induction out generalizing it with
  | nil =>
    cases h with
    | done hsize => exact ⟨1, if_pos (decide_eq_true hsize)⟩
  | cons e out ih =>
    obtain ⟨fuel, it', hnext, hpending⟩ := exists_increment h
    obtain ⟨fuel', hrest⟩ := ih hpending
    refine ⟨max fuel fuel' + 1, ?_⟩
    rw [deliver, isEnd_eq h, if_neg Bool.false_ne_true, deref_eq h, increment_mono (by omega) hnext, Option.bind_some,
      deliver_mono (le_max_right fuel fuel') hrest]
    rfl

end ConstIterator

/-- A loop over the iterators delivers what the plain nest yields, each element once and in order, and ends, for every
    capacity of the buffers. -/
theorem Iteration.deliver_eq (I : Iteration) {arrays : ArrayVar → ℤ → Val} {out : List Element}
    (hyields : Yields [I.body] ⟨I.entry 0, arrays⟩ out) (buffers : Buffers) :
    ∃ fuel, I.deliver fuel arrays buffers = some (out.map fun e => (e.1.map Prod.snd, e.2)) := by
  have hready : Ready I 0 none arrays out := .start hyields
  obtain ⟨fuel, it, hstart, hpending⟩ := @ConstIterator.exists_refill I (.init arrays buffers) out hready
  obtain ⟨fuel', hdeliver⟩ := ConstIterator.exists_deliver hpending
  have hincrement : (ConstIterator.init arrays buffers).increment I fuel = some it :=
    (if_pos (Nat.zero_le _)).trans hstart
  refine ⟨max fuel fuel', ?_⟩
  rw [Iteration.deliver, ConstIterator.increment_mono (le_max_left fuel fuel') hincrement, Option.bind_some]
  exact ConstIterator.deliver_mono (le_max_right fuel fuel') hdeliver

/-- The iterate function of a dense vector with two components. -/
def denseVector (capacity : ℕ) (hpos : 0 < capacity) : Iteration where
  tensorOrder := 1
  bufferCapacity := capacity
  body :=
    .for ⟨0, .int .w32⟩ (.literal (.make (.int .w32) 0)) ⟨1, .int .w32⟩ (.literal (.make (.int .w32) 1))
      (.scope (.yield [⟨0, .int .w32⟩] (.load ⟨0, .int .w32⟩ (.var ⟨0, .int .w32⟩))))
  entry _ v := if v = ⟨1, .int .w32⟩ then 2 else 0
  capacity_pos := hpos
  countYields_eq := rfl
  within := ⟨List.mem_singleton_self _, rfl, fun _ hv => List.mem_singleton.mp hv ▸ rfl⟩
  inputs _ _ _ := rfl

/-- Two components fill the buffers of a call, and the next call finds none. -/
theorem denseVector_delivered : ∃ fuel, (denseVector 2 Nat.two_pos).deliver fuel (fun _ n => if n = 0 then 5 else 7)
    ⟨fun _ => 0, fun _ => 0⟩ = some [([0], 5), ([1], 7)] := by
  have hyields : Yields [(denseVector 2 Nat.two_pos).body]
      ⟨(denseVector 2 Nat.two_pos).entry 0, fun _ n => if n = 0 then 5 else 7⟩
      [([(⟨0, .int .w32⟩, 0)], 5), ([(⟨0, .int .w32⟩, 1)], 7)] := by
    -- addition of values unfolds only with all definitions
    with_unfolding_all
      refine .next rfl (.next rfl (.next rfl (.next rfl (.yielded rfl ?_))))
      refine .next rfl (.next rfl (.next rfl (.next rfl (.yielded rfl ?_))))
      exact .next rfl (.next rfl (.finished rfl))
  exact Iteration.deliver_eq (denseVector 2 Nat.two_pos) hyields ⟨fun _ => 0, fun _ => 0⟩

end Codegen
end Taco
