import Taco.Tensor.ComponentEquality

/-! `const_iterator`: the components of a tensor through a buffer that the copies of an iterator share. -/

namespace Taco
namespace Components

/-! ### The iterator -/

def bufferCapacity : ℕ := 100

/-- What the calls of the iteration function write, a list of components for each call until it has none left. -/
structure Refills (V : Type) (order : ℕ) where
  chunks : List (List (Coord × V))
  ne_nil : ∀ chunk ∈ chunks, chunk ≠ []
  length_le : ∀ chunk ∈ chunks, chunk.length ≤ bufferCapacity
  order_eq : ∀ chunk ∈ chunks, ∀ c ∈ chunk, c.1.length = order

/-- The context that the copies of an iterator share: the buffers, and what the iteration function will write. -/
structure Context (V : Type) where
  coordBuffer : ℕ → ℤ
  valBuffer : ℕ → V
  pending : List (List (Coord × V))

/-- The fields of an iterator of its own; `coordinates` points into the coordinate buffer. -/
structure ConstIterator (V : Type) where
  bufferSize : ℕ
  bufferPos : ℕ
  chunksIterated : ℤ
  coordinates : ℕ
  value : V

section Iterator

variable {V : Type} (order : ℕ)

/-- `fillBuffer`, and the size of the buffer after it. -/
def fillBuffer (ctx : Context V) : Context V × ℕ :=
  match ctx.pending with
  | [] => (ctx, 0)
  | chunk :: pending =>
    ({ coordBuffer := fun x => ((chunk[x / order]?).bind fun c => c.1[x % order]?).getD (ctx.coordBuffer x)
       valBuffer := fun p => ((chunk[p]?).map Prod.snd).getD (ctx.valBuffer p)
       pending := pending }, chunk.length)

/-- `operator++()`. -/
def increment (s : Context V × ConstIterator V) : Context V × ConstIterator V :=
  let it : ConstIterator V := { s.2 with bufferPos := s.2.bufferPos + 1, coordinates := s.2.coordinates + order }
  if it.bufferPos ≥ it.bufferSize then
    let (ctx, bufferSize) := fillBuffer order s.1
    let it : ConstIterator V :=
      { it with bufferSize := bufferSize, bufferPos := 0, coordinates := 0, chunksIterated := it.chunksIterated + 1 }
    (ctx, { it with value := ctx.valBuffer it.bufferPos })
  else (s.1, { it with value := s.1.valBuffer it.bufferPos })

/-- `operator++(int)`: a copy of the iterator, and the state after the increment. -/
def incrementPost (s : Context V × ConstIterator V) : ConstIterator V × (Context V × ConstIterator V) :=
  let result := s.2
  (result, increment order s)

/-- `operator*`, with the coordinates that the pointer leads to. -/
def deref (ctx : Context V) (it : ConstIterator V) : Coord × V :=
  ((List.range order).map fun i => ctx.coordBuffer (it.coordinates + i), it.value)

/-- `*this == end()`. -/
def isEnd (it : ConstIterator V) : Bool := it.bufferSize = 0

/-- The constructor, with buffers that are not initialized. -/
def begin [Zero V] (coordBuffer : ℕ → ℤ) (valBuffer : ℕ → V) (refills : Refills V order) : Context V × ConstIterator V :=
  increment order (⟨coordBuffer, valBuffer, refills.chunks⟩, ⟨0, 0, -1, 0, 0⟩)

/-- A walk with `*it` followed by `++it`. -/
def walk : ℕ → Context V × ConstIterator V → Option (List (Coord × V))
  | 0, _ => none
  | fuel + 1, s => if isEnd s.2 then some [] else (walk fuel (increment order s)).map (deref order s.1 s.2 :: ·)

/-- A walk with `*it++`. -/
def walkPost : ℕ → Context V × ConstIterator V → Option (List (Coord × V))
  | 0, _ => none
  | fuel + 1, s =>
    if isEnd s.2 then some []
    else
      let (result, s) := incrementPost order s
      (walkPost fuel s).map (deref order s.1 result :: ·)

/-- Both walks end with the same components, and a copy of the iterator keeps its component while the iterator is
    incremented. -/
structure PostIncrementKeeps (s : Context V × ConstIterator V) : Prop where
  walks : ∃ cs, ∀ fuel, cs.length < fuel → walk order fuel s = some cs ∧ walkPost order fuel s = some cs
  copies : ∀ k m, isEnd ((increment order)^[k] s).2 = false →
    deref order ((increment order)^[m] ((increment order)^[k] s)).1 ((increment order)^[k] s).2 =
      deref order ((increment order)^[k] s).1 ((increment order)^[k] s).2

end Iterator

/-! ### The buffers -/

variable {V : Type} {order : ℕ} {chunks hist : List (List (Coord × V))} {cur : List (Coord × V)} {p q : ℕ} {x : Coord × V}
  {s : Context V × ConstIterator V}

/-- The coordinates at a position of the buffer. -/
def readCoord (order : ℕ) (ctx : Context V) (q : ℕ) : Coord := (List.range order).map fun i => ctx.coordBuffer (q * order + i)

/-- The last component that was written at a position, where the last chunk written stands first. -/
def held (hist : List (List (Coord × V))) (q : ℕ) : Option (Coord × V) := hist.findSome? (·[q]?)

/-- The buffers after some of the chunks have been written. -/
structure Reached (order : ℕ) (chunks hist : List (List (Coord × V))) (ctx : Context V) : Prop where
  split : hist.reverse ++ ctx.pending = chunks
  holds : ∀ q x, held hist q = some x → readCoord order ctx q = x.1 ∧ ctx.valBuffer q = x.2

/-- The iterator stands at a component of the last chunk. -/
structure Points (order : ℕ) (cur : List (Coord × V)) (p : ℕ) (x : Coord × V) (it : ConstIterator V) : Prop where
  get : cur[p]? = some x
  size : it.bufferSize = cur.length
  pos : it.bufferPos = p
  coords : it.coordinates = p * order
  value : it.value = x.2

theorem Points.isEnd_eq {it : ConstIterator V} (h : Points order cur p x it) : isEnd it = false := by
  have hlt := (List.getElem?_eq_some_iff.mp h.get).1
  rw [isEnd, h.size, decide_eq_false_iff_not]
  omega

theorem Points.deref_eq {it : ConstIterator V} (h : Points order cur p x it) (ctx : Context V) :
    deref order ctx it = (readCoord order ctx p, x.2) := by
  rw [deref, h.coords, h.value, readCoord]

/-- A position of the buffer after a chunk has been written. -/
theorem readCoord_fillBuffer {ctx : Context V} {pending : List (List (Coord × V))} (hpending : ctx.pending = cur :: pending)
    (horder : ∀ c ∈ cur, c.1.length = order) (q : ℕ) :
    readCoord order (fillBuffer order ctx).1 q = ((cur[q]?).map Prod.fst).getD (readCoord order ctx q) := by
  have hbuffer : ∀ i < order, (fillBuffer order ctx).1.coordBuffer (q * order + i) =
      ((cur[q]?).bind fun c => c.1[i]?).getD (ctx.coordBuffer (q * order + i)) := by
    intro i hi
    have hpos : 0 < order := Nat.zero_lt_of_lt hi
    have hdiv : (q * order + i) / order = q := by
      rw [Nat.add_comm, Nat.add_mul_div_right _ _ hpos, Nat.div_eq_of_lt hi, Nat.zero_add]
    have hmod : (q * order + i) % order = i := by
      rw [Nat.add_comm, Nat.add_mul_mod_self_right, Nat.mod_eq_of_lt hi]
    simp only [fillBuffer, hpending, hdiv, hmod]
  cases hq : cur[q]? with
  | none =>
    refine List.map_congr_left fun i hi => ?_
    rw [hbuffer i (List.mem_range.mp hi), hq]
    rfl
  | some c =>
    have hlength : c.1.length = order := horder c (List.mem_of_getElem? hq)
    rw [Option.map_some, Option.getD_some]
    refine List.ext_getElem (by rw [readCoord, List.length_map, List.length_range, hlength]) fun i hi hi' => ?_
    have hlt : i < order := hlength ▸ hi'
    simp only [readCoord, List.getElem_map, List.getElem_range]
    rw [hbuffer i hlt, hq, Option.bind_some, List.getElem?_eq_getElem hi', Option.getD_some]

theorem valBuffer_fillBuffer {ctx : Context V} {pending : List (List (Coord × V))} (hpending : ctx.pending = cur :: pending)
    (q : ℕ) : (fillBuffer order ctx).1.valBuffer q = ((cur[q]?).map Prod.snd).getD (ctx.valBuffer q) := by
  simp only [fillBuffer, hpending]

/-- Writing the next chunk. -/
theorem Reached.fill {ctx : Context V} {pending : List (List (Coord × V))} (h : Reached order chunks hist ctx)
    (hpending : ctx.pending = cur :: pending) (horder : ∀ c ∈ cur, c.1.length = order) :
    Reached order chunks (cur :: hist) (fillBuffer order ctx).1 ∧ (fillBuffer order ctx).2 = cur.length := by
  refine ⟨⟨?_, fun q x hx => ?_⟩, by simp only [fillBuffer, hpending]⟩
  · have hrest : (fillBuffer order ctx).1.pending = pending := by simp only [fillBuffer, hpending]
    rw [hrest, List.reverse_cons, List.append_assoc, List.singleton_append, ← hpending]
    exact h.split
  · rw [readCoord_fillBuffer hpending horder, valBuffer_fillBuffer hpending]
    rw [held, List.findSome?_cons] at hx
    cases hq : cur[q]? with
    | none =>
      rw [hq] at hx
      exact h.holds q x hx
    | some c =>
      rw [hq] at hx
      cases hx
      exact ⟨rfl, rfl⟩

/-! ### One increment -/

/-- The state of an iterator at a component: the chunks written so far, the last of them, and the position in it. -/
structure At (order : ℕ) (chunks hist : List (List (Coord × V))) (cur : List (Coord × V)) (p : ℕ)
    (s : Context V × ConstIterator V) : Prop where
  reached : Reached order chunks (cur :: hist) s.1
  points : ∃ x, Points order cur p x s.2

/-- The state of an iterator at the end. -/
structure AtEnd (order : ℕ) (chunks : List (List (Coord × V))) (s : Context V × ConstIterator V) : Prop where
  reached : Reached order chunks chunks.reverse s.1
  isEnd : isEnd s.2 = true

/-- The increment at the end of the buffer goes to the first component of the next chunk. -/
theorem increment_fill (hs : Reached order chunks hist s.1) (hpos : s.2.bufferSize ≤ s.2.bufferPos + 1)
    {pending : List (List (Coord × V))} (hpending : s.1.pending = cur :: pending) (hne : cur ≠ [])
    (horder : ∀ c ∈ cur, c.1.length = order) : At order chunks hist cur 0 (increment order s) := by
  obtain ⟨hreached, hsize⟩ := hs.fill hpending horder
  obtain ⟨x, hx⟩ : ∃ x, cur[0]? = some x := ⟨cur.head hne, by rw [← List.head?_eq_getElem?, List.head?_eq_some_head hne]⟩
  have hinc : increment order s = ((fillBuffer order s.1).1,
      { bufferSize := (fillBuffer order s.1).2, bufferPos := 0, chunksIterated := s.2.chunksIterated + 1, coordinates := 0
        value := (fillBuffer order s.1).1.valBuffer 0 }) := by
    rw [increment, if_pos hpos]
  rw [hinc]
  refine ⟨hreached, x, hx, hsize, rfl, (Nat.zero_mul _).symm, ?_⟩
  exact (hreached.holds 0 x (by rw [held, List.findSome?_cons, hx])).2

/-- The increment after the last component of the last chunk leaves the buffers as they are. -/
theorem increment_last (hs : Reached order chunks hist s.1) (hpos : s.2.bufferSize ≤ s.2.bufferPos + 1)
    (hpending : s.1.pending = []) : AtEnd order chunks (increment order s) := by
  have hfill : fillBuffer order s.1 = (s.1, 0) := by
    rw [fillBuffer, hpending]
  have hhist : hist = chunks.reverse := by
    rw [← hs.split, hpending, List.append_nil, List.reverse_reverse]
  rw [increment, if_pos hpos, hfill]
  exact ⟨hhist ▸ hs, rfl⟩

/-- The increment inside the buffer. -/
theorem At.increment_next (h : At order chunks hist cur p s) (hlt : p + 1 < cur.length) :
    At order chunks hist cur (p + 1) (increment order s) := by
  obtain ⟨x, hx⟩ := h.points
  have hnot : ¬ s.2.bufferPos + 1 ≥ s.2.bufferSize := by
    rw [hx.pos, hx.size]
    omega
  have hnext : cur[p + 1]? = some cur[p + 1] := List.getElem?_eq_getElem hlt
  rw [increment, if_neg hnot]
  refine ⟨h.reached, cur[p + 1], hnext, hx.size, congrArg (· + 1) hx.pos, ?_, ?_⟩
  · exact (congrArg (· + order) hx.coords).trans (Nat.succ_mul p order).symm
  · have hheld : held (cur :: hist) (p + 1) = some cur[p + 1] := by rw [held, List.findSome?_cons, hnext]
    exact (congrArg (fun q => s.1.valBuffer (q + 1)) hx.pos).trans (h.reached.holds _ _ hheld).2

/-- The next component: in the same chunk, the first of the next chunk, or none. -/
theorem At.increment (horder : ∀ chunk ∈ chunks, ∀ c ∈ chunk, c.1.length = order) (hne : ∀ chunk ∈ chunks, chunk ≠ [])
    (h : At order chunks hist cur p s) :
    (p + 1 < cur.length ∧ At order chunks hist cur (p + 1) (increment order s)) ∨
      (cur.length = p + 1 ∧ ∃ next pending, s.1.pending = next :: pending ∧
        At order chunks (cur :: hist) next 0 (Components.increment order s)) ∨
      (cur.length = p + 1 ∧ s.1.pending = [] ∧ AtEnd order chunks (Components.increment order s)) := by
  obtain ⟨x, hx⟩ := h.points
  have hlt := (List.getElem?_eq_some_iff.mp hx.get).1
  by_cases hnext : p + 1 < cur.length
  · exact Or.inl ⟨hnext, h.increment_next hnext⟩
  · right
    have hlast : cur.length = p + 1 := by omega
    have hpos : s.2.bufferSize ≤ s.2.bufferPos + 1 := by
      rw [hx.pos, hx.size]
      omega
    cases hpending : s.1.pending with
    | nil => exact Or.inr ⟨hlast, rfl, increment_last h.reached hpos hpending⟩
    | cons next pending =>
      have hmem : next ∈ chunks := by
        rw [← h.reached.split, hpending]
        exact List.mem_append_right _ List.mem_cons_self
      exact Or.inl ⟨hlast, next, pending, rfl, increment_fill h.reached hpos hpending (hne next hmem) (horder next hmem)⟩

/-- At the end, an increment changes nothing that matters. -/
theorem AtEnd.increment (h : AtEnd order chunks s) : AtEnd order chunks (increment order s) := by
  have hpending : s.1.pending = [] := by
    have hsplit := h.reached.split
    rwa [List.reverse_reverse, List.append_right_eq_self] at hsplit
  refine increment_last h.reached ?_ hpending
  rw [of_decide_eq_true h.isEnd]
  exact Nat.zero_le _

/-! ### Runs of increments -/

/-- The iterator stands at a component of the last chunk written, or at the end. -/
def Standing (order : ℕ) (chunks hist : List (List (Coord × V))) (s : Context V × ConstIterator V) : Prop :=
  (∃ cur earlier p, hist = cur :: earlier ∧ At order chunks earlier cur p s) ∨
    (hist = chunks.reverse ∧ AtEnd order chunks s)

theorem Standing.reached (h : Standing order chunks hist s) : Reached order chunks hist s.1 := by
  rcases h with ⟨cur, earlier, p, rfl, h⟩ | ⟨rfl, h⟩
  · exact h.reached
  · exact h.reached

section Run

variable (refills : Refills V order)

theorem Standing.increment (h : Standing order refills.chunks hist s) :
    ∃ new, Standing order refills.chunks (new ++ hist) (increment order s) := by
  rcases h with ⟨cur, earlier, p, rfl, h⟩ | ⟨rfl, h⟩
  · rcases h.increment refills.order_eq refills.ne_nil with ⟨-, hnext⟩ | ⟨-, next, pending, -, hnext⟩ | ⟨-, hpending, hend⟩
    · exact ⟨[], Or.inl ⟨cur, earlier, p + 1, rfl, hnext⟩⟩
    · exact ⟨[next], Or.inl ⟨next, cur :: earlier, 0, rfl, hnext⟩⟩
    · have hall : cur :: earlier = refills.chunks.reverse := by
        rw [← h.reached.split, hpending, List.append_nil, List.reverse_reverse]
      exact ⟨[], Or.inr ⟨hall, hend⟩⟩
  · exact ⟨[], Or.inr ⟨rfl, h.increment⟩⟩

theorem Standing.iterate (h : Standing order refills.chunks hist s) (m : ℕ) :
    ∃ new, Standing order refills.chunks (new ++ hist) ((Components.increment order)^[m] s) := by
  induction m with
  | zero => exact ⟨[], h⟩
  | succ m ih =>
    obtain ⟨new, hnew⟩ := ih
    obtain ⟨newer, hnewer⟩ := hnew.increment refills
    rw [Function.iterate_succ_apply', ← List.append_assoc] at *
    exact ⟨newer ++ new, hnewer⟩

variable [Zero V] (coordBuffer : ℕ → ℤ) (valBuffer : ℕ → V)

omit [Zero V] in
theorem reached_nil : Reached order refills.chunks [] (⟨coordBuffer, valBuffer, refills.chunks⟩ : Context V) :=
  ⟨rfl, fun q x hx => by cases hx⟩

theorem standing_begin : ∃ hist, Standing order refills.chunks hist (begin order coordBuffer valBuffer refills) := by
  have hstart := reached_nil refills coordBuffer valBuffer
  cases hchunks : refills.chunks with
  | nil =>
    refine ⟨_, Or.inr ⟨rfl, ?_⟩⟩
    rw [← hchunks]
    exact increment_last hstart (Nat.zero_le _) hchunks
  | cons cur pending =>
    have hmem : cur ∈ refills.chunks := hchunks ▸ List.mem_cons_self
    refine ⟨_, Or.inl ⟨cur, [], 0, rfl, ?_⟩⟩
    rw [← hchunks]
    exact increment_fill hstart (Nat.zero_le _) hchunks (refills.ne_nil cur hmem) (refills.order_eq cur hmem)

/-- The increments that lead to a position of a chunk, by induction on the chunks before it and the position. -/
theorem at_iterate {before after : List (List (Coord × V))} (hsplit : refills.chunks = before ++ cur :: after)
    (hp : p < cur.length) :
    At order refills.chunks before.reverse cur p
      ((increment order)^[before.flatten.length + p] (begin order coordBuffer valBuffer refills)) := by
  induction before using List.reverseRecOn generalizing cur after p with
  | nil =>
    induction p with
    | zero =>
      have hmem : cur ∈ refills.chunks := hsplit ▸ List.mem_cons_self
      exact increment_fill (s := (⟨coordBuffer, valBuffer, refills.chunks⟩, ⟨0, 0, -1, 0, 0⟩))
        (reached_nil refills coordBuffer valBuffer) (Nat.zero_le _) (hsplit.trans (List.nil_append _))
        (refills.ne_nil cur hmem) (refills.order_eq cur hmem)
    | succ p ih =>
      rw [← Nat.add_assoc, Function.iterate_succ_apply']
      exact (ih (by omega)).increment_next hp
  | append_singleton before last ihbefore =>
    induction p with
    | zero =>
      rw [List.append_assoc, List.singleton_append] at hsplit
      have hmem : last ∈ refills.chunks := hsplit ▸ List.mem_append_right _ List.mem_cons_self
      have hpos := List.length_pos_iff.mpr (refills.ne_nil last hmem)
      -- The last component of the chunk before it.
      have hprev := ihbefore hsplit (p := last.length - 1) (by omega)
      have hcount : (before ++ [last]).flatten.length + 0 = before.flatten.length + (last.length - 1) + 1 := by
        rw [List.flatten_append, List.length_append, List.flatten_singleton]
        omega
      rw [hcount, Function.iterate_succ_apply', List.reverse_append, List.reverse_singleton, List.singleton_append]
      have hpending := hprev.reached.split
      rw [hsplit, List.reverse_cons, List.reverse_reverse, List.append_assoc, List.singleton_append,
        List.append_cancel_left_eq, List.cons.injEq] at hpending
      rcases hprev.increment refills.order_eq refills.ne_nil with ⟨hlt, -⟩ | ⟨-, next, pending, hnext, hat⟩ | ⟨-, hnil, -⟩
      · omega
      · rw [hpending.2, List.cons.injEq] at hnext
        exact hnext.1 ▸ hat
      · rw [hpending.2] at hnil
        cases hnil
    | succ p ih =>
      rw [← Nat.add_assoc, Function.iterate_succ_apply']
      exact (ih (by omega)).increment_next hp

/-! ### Copies -/

/-- Two chunks have the same coordinates at each position of the buffer that both fill. -/
def SameCoords (chunks : List (List (Coord × V))) : Prop :=
  ∀ chunk ∈ chunks, ∀ other ∈ chunks, ∀ (q : ℕ) (x y : Coord × V), chunk[q]? = some x → other[q]? = some y → x.1 = y.1

omit [Zero V] in
theorem Standing.copy_keeps (hsame : SameCoords refills.chunks) (h : Standing order refills.chunks hist s)
    (hnot : isEnd s.2 = false) (m : ℕ) :
    deref order ((Components.increment order)^[m] s).1 s.2 = deref order s.1 s.2 := by
  rcases h with ⟨cur, earlier, p, rfl, hat⟩ | ⟨-, hend⟩
  · obtain ⟨x, hx⟩ := hat.points
    obtain ⟨new, hnew⟩ := Standing.iterate refills (Or.inl ⟨cur, earlier, p, rfl, hat⟩) m
    have hread : readCoord order s.1 p = x.1 :=
      (hat.reached.holds p x (by rw [held, List.findSome?_cons, hx.get])).1
    -- Whatever was written last at the position has the same coordinates.
    obtain ⟨y, hy⟩ : ∃ y, held (new ++ cur :: earlier) p = some y := by
      refine Option.isSome_iff_exists.mp (List.findSome?_isSome_iff.mpr ⟨cur, by simp, ?_⟩)
      rw [hx.get]
      rfl
    obtain ⟨c, hc, hget⟩ := List.exists_of_findSome?_eq_some hy
    have hmem : ∀ chunk ∈ new ++ cur :: earlier, chunk ∈ refills.chunks := fun chunk hchunk => by
      rw [← hnew.reached.split]
      exact List.mem_append_left _ (List.mem_reverse.mpr hchunk)
    have heq : x.1 = y.1 := hsame cur (hmem cur (by simp)) c (hmem c hc) p x y hx.get hget
    rw [hx.deref_eq, hx.deref_eq, hread, (hnew.reached.holds p y hy).1, heq]
  · rw [hend.isEnd] at hnot
    cases hnot

/-- If the copies keep their components, then no chunk changes coordinates of an earlier one. -/
theorem sameCoords_of_copies
    (h : ∀ k m, isEnd ((increment order)^[k] (begin order coordBuffer valBuffer refills)).2 = false →
      deref order ((increment order)^[m] ((increment order)^[k] (begin order coordBuffer valBuffer refills))).1
          ((increment order)^[k] (begin order coordBuffer valBuffer refills)).2 =
        deref order ((increment order)^[k] (begin order coordBuffer valBuffer refills)).1
          ((increment order)^[k] (begin order coordBuffer valBuffer refills)).2) :
    SameCoords refills.chunks := by
  have hlater : ∀ (before : List (List (Coord × V))) chunk between other after (q : ℕ) x y,
      refills.chunks = before ++ chunk :: (between ++ other :: after) →
      chunk[q]? = some x → other[q]? = some y → x.1 = y.1 := by
    intro before c between c' after q x y hsplit hx hy
    have hq := (List.getElem?_eq_some_iff.mp hx).1
    have hq' := (List.getElem?_eq_some_iff.mp hy).1
    have hat := at_iterate refills coordBuffer valBuffer hsplit hq
    have hsplit' : refills.chunks = (before ++ c :: between) ++ c' :: after := by
      rw [hsplit, List.append_assoc, List.cons_append]
    have hat' := at_iterate refills coordBuffer valBuffer hsplit' (Nat.zero_lt_of_lt hq')
    -- The copy is made at position `q` of `c`, and the iterator is incremented until `c'` is written.
    have hm : (before ++ c :: between).flatten.length + 0 =
        (c.length - q + between.flatten.length) + (before.flatten.length + q) := by
      rw [List.flatten_append, List.flatten_cons, List.length_append, List.length_append]
      omega
    rw [hm, Function.iterate_add_apply] at hat'
    obtain ⟨x', hx'⟩ := hat.points
    obtain rfl : x = x' := Option.some.inj (hx.symm.trans hx'.get)
    have hkeep := h (before.flatten.length + q) (c.length - q + between.flatten.length) hx'.isEnd_eq
    rw [hx'.deref_eq, hx'.deref_eq, Prod.mk.injEq] at hkeep
    have hread := (hat.reached.holds q x (by rw [held, List.findSome?_cons, hx])).1
    have hread' := (hat'.reached.holds q y (by rw [held, List.findSome?_cons, hy])).1
    rw [← hread, ← hread', hkeep.1]
  intro c hc c' hc' q x y hx hy
  obtain ⟨i, hi, rfl⟩ := List.getElem_of_mem hc
  obtain ⟨j, hj, rfl⟩ := List.getElem_of_mem hc'
  have hsplit : ∀ i j (hi : i < refills.chunks.length) (hj : j < refills.chunks.length), i < j →
      refills.chunks = refills.chunks.take i ++ refills.chunks[i] ::
        ((refills.chunks.drop (i + 1)).take (j - (i + 1)) ++ refills.chunks[j] :: refills.chunks.drop (j + 1)) := by
    intro i j hi hj hij
    have hdrop : (refills.chunks.drop (i + 1)).take (j - (i + 1)) ++ refills.chunks[j] :: refills.chunks.drop (j + 1) =
        refills.chunks.drop (i + 1) := by
      have hj' : refills.chunks[j] :: refills.chunks.drop (j + 1) = (refills.chunks.drop (i + 1)).drop (j - (i + 1)) := by
        rw [List.drop_drop, Nat.add_sub_cancel' hij, ← List.drop_eq_getElem_cons hj]
      rw [hj', List.take_append_drop]
    rw [hdrop, ← List.drop_eq_getElem_cons hi, List.take_append_drop]
  rcases lt_trichotomy i j with hij | rfl | hij
  · exact hlater _ _ _ _ _ q x y (hsplit i j hi hj hij) hx hy
  · exact congrArg Prod.fst (Option.some.inj (hx.symm.trans hy))
  · exact (hlater _ _ _ _ _ q y x (hsplit j i hj hi hij) hy hx).symm

/-! ### Walks -/

omit [Zero V] in
theorem At.deref_eq (h : At order chunks hist cur p s) (hx : cur[p]? = some x) : deref order s.1 s.2 = x := by
  obtain ⟨y, hy⟩ := h.points
  obtain rfl : x = y := Option.some.inj (hx.symm.trans hy.get)
  rw [hy.deref_eq, (h.reached.holds p x (by rw [held, List.findSome?_cons, hx])).1]

omit [Zero V] in
theorem AtEnd.walk_eq (h : AtEnd order chunks s) {fuel : ℕ} (hfuel : 0 < fuel) : walk order fuel s = some [] := by
  obtain ⟨fuel, rfl⟩ := Nat.exists_eq_succ_of_ne_zero hfuel.ne'
  rw [walk, if_pos h.isEnd]

omit [Zero V] in
/-- The rest of a walk, by induction on the bound: each increment leaves one component less. -/
theorem At.walk_eq {fuel : ℕ} (h : At order refills.chunks hist cur p s)
    (hfuel : (cur.drop p ++ s.1.pending.flatten).length < fuel) :
    walk order fuel s = some (cur.drop p ++ s.1.pending.flatten) := by
  induction fuel generalizing hist cur p s with
  | zero => cases hfuel
  | succ fuel ih =>
    obtain ⟨x, hx⟩ := h.points
    obtain ⟨hlt, hget⟩ := List.getElem?_eq_some_iff.mp hx.get
    have hdrop : cur.drop p = x :: cur.drop (p + 1) := by rw [List.drop_eq_getElem_cons hlt, hget]
    rw [hdrop, List.cons_append, List.length_cons] at hfuel
    have hrest : walk order fuel (Components.increment order s) = some (cur.drop (p + 1) ++ s.1.pending.flatten) := by
      rcases h.increment refills.order_eq refills.ne_nil with
        ⟨hnext, hat⟩ | ⟨hlast, next, pending, hpending, hat⟩ | ⟨hlast, hpending, hend⟩
      · have hsame : (Components.increment order s).1.pending = s.1.pending := by
          have hsplit := hat.reached.split.trans h.reached.split.symm
          exact List.append_cancel_left hsplit
        rw [← hsame] at hfuel ⊢
        exact ih hat (by omega)
      · have hrest : (Components.increment order s).1.pending = pending := by
          have hsplit := hat.reached.split.trans h.reached.split.symm
          rw [hpending, List.reverse_cons, List.append_assoc, List.singleton_append, List.append_cancel_left_eq,
            List.cons.injEq] at hsplit
          exact hsplit.2
        rw [List.drop_eq_nil_of_le (by omega), List.nil_append, hpending, List.flatten_cons] at hfuel ⊢
        have hwalk := ih hat (by rw [hrest, List.drop_zero]; omega)
        rwa [hrest, List.drop_zero] at hwalk
      · rw [List.drop_eq_nil_of_le (by omega), hpending] at hfuel ⊢
        exact hend.walk_eq (by simpa using hfuel)
    rw [walk, hx.isEnd_eq, if_neg Bool.false_ne_true, hrest, Option.map_some, h.deref_eq hx.get, hdrop, List.cons_append]

/-- A walk with `*it` and `++it` is through all components. -/
theorem walk_begin {fuel : ℕ} (hfuel : refills.chunks.flatten.length < fuel) :
    walk order fuel (begin order coordBuffer valBuffer refills) = some refills.chunks.flatten := by
  cases hchunks : refills.chunks with
  | nil =>
    rw [hchunks] at hfuel
    have hend : AtEnd order refills.chunks (begin order coordBuffer valBuffer refills) :=
      increment_last (reached_nil refills coordBuffer valBuffer) (Nat.zero_le _) hchunks
    exact hend.walk_eq (by simpa using hfuel)
  | cons first pending =>
    have hmem : first ∈ refills.chunks := hchunks ▸ List.mem_cons_self
    have hpos := List.length_pos_iff.mpr (refills.ne_nil first hmem)
    have hat : At order refills.chunks [] first 0 (begin order coordBuffer valBuffer refills) :=
      at_iterate refills coordBuffer valBuffer (hchunks.trans (List.nil_append _).symm) hpos
    have hpending : (begin order coordBuffer valBuffer refills).1.pending = pending :=
      (List.cons.inj (hat.reached.split.trans hchunks)).2
    have hall : first.drop 0 ++ (begin order coordBuffer valBuffer refills).1.pending.flatten =
        (first :: pending).flatten := by
      rw [hpending, List.drop_zero, List.flatten_cons]
    rw [← hall]
    refine hat.walk_eq refills ?_
    rwa [hall, ← hchunks]

omit [Zero V] in
/-- The two walks see the same components where the copies keep theirs. -/
theorem walkPost_eq_walk (h : ∀ k m, isEnd ((increment order)^[k] s).2 = false →
      deref order ((increment order)^[m] ((increment order)^[k] s)).1 ((increment order)^[k] s).2 =
        deref order ((increment order)^[k] s).1 ((increment order)^[k] s).2) (fuel k : ℕ) :
    walkPost order fuel ((increment order)^[k] s) = walk order fuel ((increment order)^[k] s) := by
  induction fuel generalizing k with
  | zero => rfl
  | succ fuel ih =>
    rw [walkPost, walk]
    cases hend : isEnd ((increment order)^[k] s).2 with
    | true => rfl
    | false =>
      have hrest := ih (k + 1)
      have hcopy := h k 1 hend
      rw [Function.iterate_succ_apply'] at hrest
      rw [Function.iterate_one] at hcopy
      simp only [incrementPost, Bool.false_eq_true, if_false]
      rw [hrest, hcopy]

/-- Post-increments and copies are right exactly if no two refills of the buffer have different coordinates at a position
    that both of them fill. -/
theorem postIncrementKeeps_iff :
    PostIncrementKeeps order (begin order coordBuffer valBuffer refills) ↔ SameCoords refills.chunks := by
  constructor
  · exact fun h => sameCoords_of_copies refills coordBuffer valBuffer h.copies
  · intro hsame
    have hcopies : ∀ k m, isEnd ((increment order)^[k] (begin order coordBuffer valBuffer refills)).2 = false →
        deref order ((increment order)^[m] ((increment order)^[k] (begin order coordBuffer valBuffer refills))).1
            ((increment order)^[k] (begin order coordBuffer valBuffer refills)).2 =
          deref order ((increment order)^[k] (begin order coordBuffer valBuffer refills)).1
            ((increment order)^[k] (begin order coordBuffer valBuffer refills)).2 := by
      intro k m hnot
      obtain ⟨hist, hstart⟩ := standing_begin refills coordBuffer valBuffer
      obtain ⟨new, hk⟩ := hstart.iterate refills k
      exact hk.copy_keeps refills hsame hnot m
    refine ⟨⟨refills.chunks.flatten, fun fuel hfuel => ?_⟩, hcopies⟩
    have hwalk := walk_begin refills coordBuffer valBuffer hfuel
    exact ⟨hwalk, (walkPost_eq_walk hcopies fuel 0).trans hwalk⟩

end Run

/-- The components of a tensor have different coordinates, and then the buffer must not be refilled with more of them. -/
theorem sameCoords_iff_of_nodup (refills : Refills V order) (hnodup : (refills.chunks.flatten.map Prod.fst).Nodup) :
    SameCoords refills.chunks ↔ refills.chunks.length ≤ 1 := by
  cases hchunks : refills.chunks with
  | nil => exact iff_of_true (fun c hc => absurd hc List.not_mem_nil) (Nat.zero_le _)
  | cons first rest =>
    cases rest with
    | nil =>
      refine iff_of_true (fun c hc c' hc' q x y hx hy => ?_) le_rfl
      rw [List.mem_singleton] at hc hc'
      rw [hc] at hx
      rw [hc'] at hy
      exact congrArg Prod.fst (Option.some.inj (hx.symm.trans hy))
    | cons second rest =>
      refine iff_of_false (fun hsame => ?_) (by simp)
      have hnonempty : ∀ chunk ∈ refills.chunks, ∃ x, chunk[0]? = some x := fun c hc =>
        ⟨_, (List.head?_eq_getElem? (l := c)).symm.trans (List.head?_eq_some_head (refills.ne_nil c hc))⟩
      obtain ⟨x, hx⟩ := hnonempty first (hchunks ▸ List.mem_cons_self)
      obtain ⟨y, hy⟩ := hnonempty second (hchunks ▸ List.mem_cons_of_mem _ List.mem_cons_self)
      have heq := hsame first List.mem_cons_self second (List.mem_cons_of_mem _ List.mem_cons_self) 0 x y hx hy
      rw [hchunks, List.flatten_cons, List.flatten_cons, List.map_append, List.map_append, List.nodup_append] at hnodup
      refine hnodup.2.2 x.1 (List.mem_map_of_mem (List.mem_of_getElem? hx)) y.1 ?_ heq
      exact List.mem_append_left _ (List.mem_map_of_mem (List.mem_of_getElem? hy))

/-- The first `n` components of a vector of ones. -/
def ones (n : ℕ) : List (Coord × ℚ) := (List.range n).map fun i : ℕ => ([(i : ℤ)], 1)

theorem length_ones (n : ℕ) : (ones n).length = n := by
  rw [ones, List.length_map, List.length_range]

theorem order_ones {n : ℕ} {c : Coord × ℚ} (h : c ∈ ones n) : c.1.length = 1 := by
  obtain ⟨i, -, rfl⟩ := List.mem_map.mp h
  rfl

/-- A vector of 101 ones, which takes two refills. -/
def hundredAndOne : Refills ℚ 1 where
  chunks := [ones 100, [([100], 1)]]
  ne_nil := by
    simp only [List.mem_cons, List.not_mem_nil, or_false, forall_eq_or_imp, forall_eq]
    exact ⟨List.ne_nil_of_length_pos (by rw [length_ones]; decide), List.cons_ne_nil _ _⟩
  length_le := by
    simp only [List.mem_cons, List.not_mem_nil, or_false, forall_eq_or_imp, forall_eq, length_ones]
    decide
  order_eq := by
    simp only [List.mem_cons, List.not_mem_nil, or_false, forall_eq_or_imp, forall_eq]
    exact ⟨fun c hc => order_ones hc, rfl⟩

theorem hundredAndOne_not_kept :
    ¬ PostIncrementKeeps 1 (begin 1 (fun _ => 0) (fun _ => 0) hundredAndOne) := by
  intro h
  have hsame := sameCoords_of_copies hundredAndOne (fun _ => 0) (fun _ => 0) h.copies
  have hget : (ones 100)[0]? = some ([0], 1) := by
    rw [ones, List.getElem?_map, List.getElem?_range (by decide)]
    rfl
  have hfirst := hsame (ones 100) List.mem_cons_self [([100], 1)] (List.mem_cons_of_mem _ List.mem_cons_self) 0 _ _ hget rfl
  cases hfirst

end Components
end Taco
