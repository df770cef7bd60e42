import Taco.Notation.ConcreteNotation

/-! `Reorder::apply` and `ForAllReplace::apply`: directly nested loops that are replaced by others. -/

namespace Taco
namespace Notation

/-! ### The rewriter -/

/-- The loops that `forall(i, stmt)` makes. -/
def newLoops (replacement : List IndexVar) : List Loop := replacement.map fun i => ⟨i, .none⟩

namespace IndexStmt

/-- A loop around what a rewriter made of its body; nothing stands for the same node. -/
def rebuilt (make : IndexStmt → IndexStmt) (rewritten : Option IndexStmt) : Option IndexStmt := rewritten.map make

/-- A node with two parts, which is kept if both of them are. -/
def rebuiltPair (make : IndexStmt → IndexStmt → IndexStmt) (stmt1 stmt2 : IndexStmt) (rewritten1 rewritten2 : Option IndexStmt) :
    Option IndexStmt :=
  if rewritten1.isNone && rewritten2.isNone then none else some (make (rewritten1.getD stmt1) (rewritten2.getD stmt2))

end IndexStmt

open IndexStmt (rebuilt rebuiltPair)

section Rewriter

variable (pattern replacement : List IndexVar)

/-- `ForAllReplaceRewriter`, with its `elementsMatched`, where nothing stands for -1. -/
def forAllReplaceRewriter : Option ℕ → IndexStmt → Option IndexStmt × Option ℕ
  | elementsMatched, .undefined | elementsMatched, .assignment _ _ _ | elementsMatched, .yield _ _ => (none, elementsMatched)
  | none, .forall _ _ _ => (some .undefined, none)
  | some elementsMatched, .forall indexVar stmt tags =>
    if pattern.length ≤ elementsMatched then
      let (rewritten, elementsMatched) := forAllReplaceRewriter (some elementsMatched) stmt
      (rebuilt (.forall indexVar · tags) rewritten, elementsMatched)
    else if pattern[elementsMatched]? = some indexVar then
      -- the child is not a loop (not directly nested)
      if elementsMatched + 1 < pattern.length && !stmt.isForall then (some .undefined, none)
      else
        let (rewritten, matched) := forAllReplaceRewriter (some (elementsMatched + 1)) stmt
        let body := rewritten.getD stmt
        (some (if elementsMatched = 0 then IndexStmt.nest (newLoops replacement) body else body), matched)
    else if 0 < elementsMatched then (some .undefined, none)
    else
      let (rewritten, elementsMatched) := forAllReplaceRewriter (some elementsMatched) stmt
      (rebuilt (.forall indexVar · tags) rewritten, elementsMatched)
  | elementsMatched, .where consumer producer =>
    let (producer', elementsMatched) := forAllReplaceRewriter elementsMatched producer
    let (consumer', elementsMatched) := forAllReplaceRewriter elementsMatched consumer
    (rebuiltPair (fun producer consumer => .where consumer producer) producer consumer producer' consumer', elementsMatched)
  | elementsMatched, .sequence definition mutation =>
    let (definition', elementsMatched) := forAllReplaceRewriter elementsMatched definition
    let (mutation', elementsMatched) := forAllReplaceRewriter elementsMatched mutation
    (rebuiltPair .sequence definition mutation definition' mutation', elementsMatched)
  | elementsMatched, .assemble queries compute results =>
    let (queries', elementsMatched) := forAllReplaceRewriter elementsMatched queries
    let (compute', elementsMatched) := forAllReplaceRewriter elementsMatched compute
    (rebuiltPair (.assemble · · results) queries compute queries' compute', elementsMatched)
  | elementsMatched, .multi stmt1 stmt2 =>
    let (stmt1', elementsMatched) := forAllReplaceRewriter elementsMatched stmt1
    let (stmt2', elementsMatched) := forAllReplaceRewriter elementsMatched stmt2
    (rebuiltPair .multi stmt1 stmt2 stmt1' stmt2', elementsMatched)
  | elementsMatched, .suchThat stmt predicate =>
    let (rewritten, elementsMatched) := forAllReplaceRewriter elementsMatched stmt
    (rebuilt (.suchThat · predicate) rewritten, elementsMatched)

/-- Where the pattern did not go on, the loop is left out. -/
example (i : IndexVar) (stmt : IndexStmt) (tags : LoopTags) :
    forAllReplaceRewriter pattern replacement none (.forall i stmt tags) = (some .undefined, none) := by
  rw [forAllReplaceRewriter]

end Rewriter

/-- A transformed statement, or the reason why there is none. -/
abbrev Applied := Except String IndexStmt

structure ForAllReplace where
  pattern : List IndexVar
  replacement : List IndexVar

section Apply

variable (getName : IndexVar → String)

def joinVars (vars : List IndexVar) : String := join ", " (vars.map getName)

def ForAllReplace.apply (t : ForAllReplace) (stmt : IndexStmt) : Applied :=
  match isConcreteNotation getName stmt with
  | some r => .error ("The index statement is not valid concrete index notation: " ++ r)
  | none =>
    match forAllReplaceRewriter t.pattern t.replacement (some 0) stmt with
    | (some replaced, some _) => .ok replaced
    | (none, _) | (_, none) =>
      .error ("The pattern of ForAlls: " ++ joinVars getName t.pattern ++ " was not found while attempting to replace with: " ++
        joinVars getName t.replacement)

/-- The pattern of `Reorder(i, j)` is not ordered, that of `Reorder({i, j, k})` is. -/
inductive Reorder where
  | pair (i j : IndexVar)
  | ordered (replacePattern : List IndexVar)

namespace Reorder

def getreplacepattern : Reorder → List IndexVar
  | pair i j => [i, j]
  | ordered replacePattern => replacePattern

/-- A loop over a variable of the pattern. -/
def isMatch (pattern : List IndexVar) (loop : Loop) : Bool := pattern.contains loop.indexVar

def matchLoop (pattern : List IndexVar) (st : List IndexVar × Bool) (loop : Loop) : List IndexVar × Bool :=
  if isMatch pattern loop then (st.1 ++ [loop.indexVar], st.2)
  else (st.1, st.2 || !st.1.isEmpty && st.1.length ≠ pattern.length)

/-- The order in which the loops over variables of the pattern stand, and whether another loop comes after the first of
    them and before the last. -/
def matchLoops (pattern : List IndexVar) (loops : List Loop) : List IndexVar × Bool :=
  loops.foldl (matchLoop pattern) ([], false)

/-- The new order of the loops: two variables that stand as in an unordered pattern change places. -/
def newOrdering (r : Reorder) (currentOrdering : List IndexVar) : List IndexVar :=
  match r with
  | pair i j => if currentOrdering = [i, j] then [j, i] else [i, j]
  | ordered replacePattern => replacePattern

def apply (r : Reorder) (stmt : IndexStmt) : Applied :=
  match isConcreteNotation getName stmt with
  | some reason => .error ("The index statement is not valid concrete index notation: " ++ reason)
  | none =>
    let (currentOrdering, matchFailed) := matchLoops r.getreplacepattern stmt.loops
    let replacePattern := r.newOrdering currentOrdering
    if matchFailed || currentOrdering.length ≠ replacePattern.length then
      .error ("The foralls of reorder pattern: " ++ joinVars getName replacePattern ++ " were not directly nested.")
    else ForAllReplace.apply getName ⟨currentOrdering, replacePattern⟩ stmt

end Reorder

end Apply

/-! ### Statements around a part of a statement -/

/-- A node around a part of it. -/
inductive Frame where
  | forall (indexVar : IndexVar) (tags : LoopTags)
  | whereConsumer (producer : IndexStmt)
  | whereProducer (consumer : IndexStmt)
  | sequenceDefinition (mutation : IndexStmt)
  | sequenceMutation (definition : IndexStmt)
  | assembleQueries (compute : IndexStmt) (results : AttrQueryResults)
  | assembleCompute (queries : IndexStmt) (results : AttrQueryResults)
  | multiFirst (stmt2 : IndexStmt)
  | multiSecond (stmt1 : IndexStmt)
  | suchThat (predicate : List IndexVarRel)

namespace Frame

def fill (s : IndexStmt) : Frame → IndexStmt
  | .forall indexVar tags => .forall indexVar s tags
  | whereConsumer producer => .where s producer
  | whereProducer consumer => .where consumer s
  | sequenceDefinition mutation => .sequence s mutation
  | sequenceMutation definition => .sequence definition s
  | assembleQueries compute results => .assemble s compute results
  | assembleCompute queries results => .assemble queries s results
  | multiFirst stmt2 => .multi s stmt2
  | multiSecond stmt1 => .multi stmt1 s
  | suchThat predicate => .suchThat s predicate

/-- The loops that a visitor comes to before it comes to the part. -/
def before : Frame → List Loop
  | .forall indexVar tags => [⟨indexVar, tags⟩]
  | whereConsumer stmt | sequenceMutation stmt | assembleCompute stmt _ | multiSecond stmt => stmt.loops
  | whereProducer _ | sequenceDefinition _ | assembleQueries _ _ | multiFirst _ | suchThat _ => []

/-- The loops that a visitor comes to after it. -/
def after : Frame → List Loop
  | whereProducer stmt | sequenceDefinition stmt | assembleQueries stmt _ | multiFirst stmt => stmt.loops
  | .forall _ _ | whereConsumer _ | sequenceMutation _ | assembleCompute _ _ | multiSecond _ | suchThat _ => []

theorem loops_fill (f : Frame) (s : IndexStmt) : (f.fill s).loops = f.before ++ s.loops ++ f.after := by
  cases f <;> simp [fill, before, after, IndexStmt.loops]

end Frame

/-- The nodes around a part of a statement, the outermost first. -/
abbrev Context := List Frame

namespace Context

def fill (c : Context) (s : IndexStmt) : IndexStmt := c.foldr (fun f s => f.fill s) s

def before (c : Context) : List Loop := c.flatMap Frame.before

def after (c : Context) : List Loop := c.reverse.flatMap Frame.after

@[simp] theorem fill_cons (f : Frame) (c : Context) (s : IndexStmt) : fill (f :: c) s = f.fill (fill c s) := rfl

theorem loops_fill (c : Context) (s : IndexStmt) : (fill c s).loops = before c ++ s.loops ++ after c := by
  induction c with
  | nil => simp [fill, before, after]
  | cons f c ih =>
    rw [fill_cons, Frame.loops_fill, ih]
    simp [before, after]

end Context

theorem IndexStmt.loops_nest (loops : List Loop) (body : IndexStmt) : (nest loops body).loops = loops ++ body.loops := by
  induction loops with
  | nil => rfl
  | cons loop loops ih => exact congrArg (loop :: ·) ih

/-! ### What the rewriter does -/

section Rewriter

variable {pattern replacement : List IndexVar} {stmt body : IndexStmt} {rewritten : Option IndexStmt} {k matched : ℕ}

/-- A rewriter that has failed stays so. -/
theorem rewriter_failed (stmt : IndexStmt) : (forAllReplaceRewriter pattern replacement none stmt).2 = none := by
  induction stmt with
  | undefined | assignment | yield | «forall» => rfl
  | «where» consumer producer ihc ihp =>
    simp only [forAllReplaceRewriter, ihp, ihc]
  | sequence a b iha ihb | assemble a b _ iha ihb | multi a b iha ihb =>
    simp only [forAllReplaceRewriter, iha, ihb]
  | suchThat stmt _ ih => simp only [forAllReplaceRewriter, ih]

/-- A rewriter that has found the pattern keeps all that comes after it. -/
theorem rewriter_found (hk : pattern.length ≤ k) (stmt : IndexStmt) :
    forAllReplaceRewriter pattern replacement (some k) stmt = (none, some k) := by
  induction stmt with
  | undefined | assignment | yield => rfl
  | «forall» i stmt tags ih => simp [forAllReplaceRewriter, hk, ih, rebuilt]
  | «where» consumer producer ihc ihp => simp [forAllReplaceRewriter, ihc, ihp, rebuiltPair]
  | sequence a b iha ihb | assemble a b _ iha ihb | multi a b iha ihb => simp [forAllReplaceRewriter, iha, ihb, rebuiltPair]
  | suchThat stmt _ ih => simp [forAllReplaceRewriter, ih, rebuilt]

/-- A statement without a loop over the first variable of the pattern is kept. -/
theorem rewriter_kept (hne : pattern ≠ []) (h : ∀ loop ∈ stmt.loops, pattern.head? ≠ some loop.indexVar) :
    forAllReplaceRewriter pattern replacement (some 0) stmt = (none, some 0) := by
  have hlen : ¬ pattern.length ≤ 0 := fun hle => hne (List.eq_nil_of_length_eq_zero (Nat.le_zero.mp hle))
  induction stmt with
  | undefined | assignment | yield => rfl
  | «forall» i stmt tags ih =>
    rw [IndexStmt.loops] at h
    have hfirst : pattern[0]? ≠ some i := fun heq => h ⟨i, tags⟩ List.mem_cons_self (by rw [List.head?_eq_getElem?, heq])
    simp [forAllReplaceRewriter, hlen, hfirst, ih fun loop hloop => h loop (List.mem_cons_of_mem _ hloop), rebuilt]
  | «where» consumer producer ihc ihp =>
    rw [IndexStmt.loops] at h
    simp [forAllReplaceRewriter, ihp fun loop hloop => h loop (List.mem_append_left _ hloop),
      ihc fun loop hloop => h loop (List.mem_append_right _ hloop), rebuiltPair]
  | sequence a b iha ihb | assemble a b _ iha ihb | multi a b iha ihb =>
    rw [IndexStmt.loops] at h
    simp [forAllReplaceRewriter, iha fun loop hloop => h loop (List.mem_append_left _ hloop),
      ihb fun loop hloop => h loop (List.mem_append_right _ hloop), rebuiltPair]
  | suchThat stmt _ ih => simp [forAllReplaceRewriter, ih h, rebuilt]

/-- The rest of the pattern is found in directly nested loops, of which only the body is left. -/
theorem rewriter_rest (hlt : k < pattern.length) (hchild : k + 1 < pattern.length → stmt.isForall = true)
    (h : forAllReplaceRewriter pattern replacement (some (k + 1)) stmt = (rewritten, some matched)) :
    matched = pattern.length ∧ ∃ loops body, loops.map Loop.indexVar = pattern.drop (k + 1) ∧
      stmt = IndexStmt.nest loops body ∧ rewritten.getD stmt = body := by
  induction stmt generalizing k rewritten matched with
  | «forall» i stmt tags ih =>
    by_cases hle : pattern.length ≤ k + 1
    · rw [rewriter_found hle] at h
      obtain ⟨rfl, hmatched⟩ := Prod.mk.inj h
      exact ⟨by have := Option.some.inj hmatched; omega, [], _, by rw [List.drop_eq_nil_of_le hle]; rfl, rfl, rfl⟩
    · have hnext : k + 1 < pattern.length := not_le.mp hle
      simp only [forAllReplaceRewriter, if_neg hle] at h
      split_ifs at h with hvar hdirect hfirst
      · cases (Prod.mk.inj h).2
      · exact hfirst.elim
      · obtain ⟨rfl, hmatched⟩ := Prod.mk.inj h
        have hforall : k + 1 + 1 < pattern.length → stmt.isForall = true := fun hlt' => by simpa [hlt'] using hdirect
        obtain ⟨hlength, loops, body, hvars, hnest, hbody⟩ := ih hnext hforall (Prod.ext rfl hmatched)
        refine ⟨hlength, ⟨i, tags⟩ :: loops, body, ?_, by rw [hnest]; rfl, hbody⟩
        rw [List.map_cons, hvars, List.drop_eq_getElem_cons hnext]
        exact congrArg (· :: _) (Option.some.inj ((List.getElem?_eq_getElem hnext).symm.trans hvar)).symm
      · cases (Prod.mk.inj h).2
      · exact absurd (Nat.succ_pos k) ‹_›
  | _ =>
    have hle : pattern.length ≤ k + 1 := not_lt.mp fun hnext => by cases hchild hnext
    rw [rewriter_found hle] at h
    obtain ⟨rfl, hmatched⟩ := Prod.mk.inj h
    exact ⟨by have := Option.some.inj hmatched; omega, [], _, by rw [List.drop_eq_nil_of_le hle]; rfl, rfl, rfl⟩

/-- A statement in which directly nested loops over the pattern are replaced, and nothing else. -/
def Replaced (pattern replacement : List IndexVar) (stmt result : IndexStmt) : Prop :=
  ∃ c loops body, loops.map Loop.indexVar = pattern ∧ stmt = Context.fill c (IndexStmt.nest loops body) ∧
    result = Context.fill c (IndexStmt.nest (newLoops replacement) body)

theorem Replaced.frame {result : IndexStmt} (h : Replaced pattern replacement stmt result) (f : Frame) :
    Replaced pattern replacement (f.fill stmt) (f.fill result) := by
  obtain ⟨c, loops, body, hvars, rfl, rfl⟩ := h
  exact ⟨f :: c, loops, body, hvars, rfl, rfl⟩

/-- What a rewriter has made of a statement if it has not failed. -/
def Outcome (pattern replacement : List IndexVar) (stmt : IndexStmt) (rewritten : Option IndexStmt) (matched : ℕ) : Prop :=
  rewritten = none ∧ matched = 0 ∨
    matched = pattern.length ∧ ∃ result, rewritten = some result ∧ Replaced pattern replacement stmt result

theorem Outcome.frame (h : Outcome pattern replacement stmt rewritten matched) (f : Frame) :
    Outcome pattern replacement (f.fill stmt) (rebuilt (fun s => f.fill s) rewritten) matched := by
  obtain ⟨rfl, rfl⟩ | ⟨hmatched, result, rfl, hreplaced⟩ := h
  · exact Or.inl ⟨rfl, rfl⟩
  · exact Or.inr ⟨hmatched, _, rfl, hreplaced.frame f⟩

/-- A node with two parts: the pattern is found in the first, in the second or in neither. -/
theorem Outcome.pair {a b : IndexStmt} (make : IndexStmt → IndexStmt → IndexStmt) (frameA frameB : Frame)
    (hmakeA : ∀ s, make s b = frameA.fill s) (hmakeB : ∀ s, make a s = frameB.fill s)
    (ha : ∀ {r m}, forAllReplaceRewriter pattern replacement (some 0) a = (r, some m) → Outcome pattern replacement a r m)
    (hb : ∀ {r m}, forAllReplaceRewriter pattern replacement (some 0) b = (r, some m) → Outcome pattern replacement b r m)
    (h : (rebuiltPair make a b (forAllReplaceRewriter pattern replacement (some 0) a).1
        (forAllReplaceRewriter pattern replacement (forAllReplaceRewriter pattern replacement (some 0) a).2 b).1,
      (forAllReplaceRewriter pattern replacement (forAllReplaceRewriter pattern replacement (some 0) a).2 b).2) =
        (rewritten, some matched)) : Outcome pattern replacement (make a b) rewritten matched := by
  obtain ⟨r, state, hfirst⟩ : ∃ r state, forAllReplaceRewriter pattern replacement (some 0) a = (r, state) := ⟨_, _, rfl⟩
  rw [hfirst] at h
  obtain ⟨r', state', hsecond⟩ : ∃ r' state', forAllReplaceRewriter pattern replacement state b = (r', state') := ⟨_, _, rfl⟩
  simp only [hsecond] at h
  obtain ⟨rfl, rfl⟩ := Prod.mk.inj h
  cases state with
  | none => cases (congrArg Prod.snd hsecond).symm.trans (rewriter_failed b)
  | some m =>
    obtain ⟨rfl, rfl⟩ | ⟨rfl, result, rfl, hreplaced⟩ := ha hfirst
    · obtain ⟨rfl, rfl⟩ | ⟨rfl, result, rfl, hreplaced⟩ := hb hsecond
      · exact Or.inl ⟨rfl, rfl⟩
      · refine Or.inr ⟨rfl, _, rfl, ?_⟩
        rw [hmakeB, Option.getD_none, Option.getD_some, hmakeB]
        exact hreplaced.frame frameB
    · rw [rewriter_found (le_refl _)] at hsecond
      obtain ⟨rfl, hmatched⟩ := Prod.mk.inj hsecond
      refine Or.inr ⟨(Option.some.inj hmatched).symm, _, rfl, ?_⟩
      rw [hmakeA, Option.getD_none, Option.getD_some, hmakeA]
      exact hreplaced.frame frameA

/-- A rewriter that does not fail has replaced the pattern once, or found no beginning of it. -/
theorem rewriter_outcome (hne : pattern ≠ [])
    (h : forAllReplaceRewriter pattern replacement (some 0) stmt = (rewritten, some matched)) :
    Outcome pattern replacement stmt rewritten matched := by
  have hpos : 0 < pattern.length := List.length_pos_iff.mpr hne
  induction stmt generalizing rewritten matched with
  | undefined | assignment | yield =>
    obtain ⟨rfl, hmatched⟩ := Prod.mk.inj h
    exact Or.inl ⟨rfl, (Option.some.inj hmatched).symm⟩
  | «forall» i stmt tags ih =>
    simp only [forAllReplaceRewriter, if_neg (not_le.mpr hpos)] at h
    split_ifs at h with hvar hdirect
    · cases (Prod.mk.inj h).2
    · obtain ⟨rfl, hmatched⟩ := Prod.mk.inj h
      have hchild : 0 + 1 < pattern.length → stmt.isForall = true := fun hlt => by simpa [hlt] using hdirect
      obtain ⟨hlength, loops, body, hvars, hnest, hbody⟩ := rewriter_rest hpos hchild (Prod.ext rfl hmatched)
      refine Or.inr ⟨hlength, _, rfl, [], ⟨i, tags⟩ :: loops, body, ?_, by rw [hnest]; rfl, by rw [hbody]; rfl⟩
      obtain ⟨first, rest, rfl⟩ := List.exists_cons_of_ne_nil hne
      obtain rfl : first = i := Option.some.inj hvar
      exact congrArg (first :: ·) hvars
    · cases (Prod.mk.inj h).2
    · obtain ⟨rfl, hmatched⟩ := Prod.mk.inj h
      exact (ih (Prod.ext rfl hmatched)).frame (.forall i tags)
  | «where» consumer producer ihc ihp =>
    exact Outcome.pair (fun producer consumer => .where consumer producer) (.whereProducer consumer) (.whereConsumer producer)
      (fun _ => rfl) (fun _ => rfl) ihp ihc h
  | sequence a b iha ihb =>
    exact Outcome.pair .sequence (.sequenceDefinition b) (.sequenceMutation a) (fun _ => rfl) (fun _ => rfl) iha ihb h
  | assemble a b results iha ihb =>
    exact Outcome.pair (.assemble · · results) (.assembleQueries b results) (.assembleCompute a results) (fun _ => rfl)
      (fun _ => rfl) iha ihb h
  | multi a b iha ihb =>
    exact Outcome.pair .multi (.multiFirst b) (.multiSecond a) (fun _ => rfl) (fun _ => rfl) iha ihb h
  | suchThat stmt predicate ih =>
    obtain ⟨rfl, hmatched⟩ := Prod.mk.inj h
    exact (ih (Prod.ext rfl hmatched)).frame (.suchThat predicate)

/-- Directly nested loops over the rest of the pattern are found. -/
theorem rewriter_nest {loops : List Loop} (hne : loops ≠ []) (hvars : loops.map Loop.indexVar = pattern.drop k) :
    forAllReplaceRewriter pattern replacement (some k) (IndexStmt.nest loops body) =
      (some (if k = 0 then IndexStmt.nest (newLoops replacement) body else body), some pattern.length) := by
  induction loops generalizing k with
  | nil => exact absurd rfl hne
  | cons loop loops ih =>
    have hlt : k < pattern.length := by
      by_contra hle
      rw [List.drop_eq_nil_of_le (not_lt.mp hle)] at hvars
      cases hvars
    rw [List.drop_eq_getElem_cons hlt, List.map_cons] at hvars
    obtain ⟨hvar, hrest⟩ := List.cons.inj hvars
    have hfirst : pattern[k]? = some loop.indexVar := (List.getElem?_eq_getElem hlt).trans (congrArg some hvar.symm)
    have hlength := congrArg List.length hrest
    rw [List.length_map, List.length_drop] at hlength
    rw [IndexStmt.nest, List.foldr_cons, ← IndexStmt.nest]
    simp only [forAllReplaceRewriter, if_neg (not_le.mpr hlt), hfirst, if_true]
    cases loops with
    | nil =>
      rw [List.length_nil] at hlength
      have hlast : pattern.length = k + 1 := by omega
      simp [hlast, IndexStmt.nest, rewriter_found (le_of_eq hlast)]
    | cons next loops =>
      have hrewritten := ih (List.cons_ne_nil _ _) hrest
      rw [if_neg (Nat.succ_ne_zero k)] at hrewritten
      have hforall : (IndexStmt.nest (next :: loops) body).isForall = true := rfl
      simp [hforall, hrewritten]

/-- The first loop over the first variable of the pattern begins directly nested loops over it, which are found. -/
theorem rewriter_fill {c : Context} {loops : List Loop} (hne : pattern ≠ []) (hvars : loops.map Loop.indexVar = pattern)
    (hbefore : ∀ loop ∈ Context.before c, pattern.head? ≠ some loop.indexVar) :
    forAllReplaceRewriter pattern replacement (some 0) (Context.fill c (IndexStmt.nest loops body)) =
      (some (Context.fill c (IndexStmt.nest (newLoops replacement) body)), some pattern.length) := by
  have hloops : loops ≠ [] := by
    rintro rfl
    exact hne hvars.symm
  have hpos : ¬ pattern.length ≤ 0 := not_le.mpr (List.length_pos_iff.mpr hne)
  induction c with
  | nil => exact rewriter_nest hloops hvars
  | cons f c ih =>
    have hrest := ih fun loop hloop => hbefore loop (List.mem_append_right _ hloop)
    have hframe : ∀ loop ∈ f.before, pattern.head? ≠ some loop.indexVar := fun loop hloop =>
      hbefore loop (List.mem_append_left _ hloop)
    rw [Context.fill_cons, Context.fill_cons]
    cases f with
    | «forall» i tags =>
      have hfirst : pattern[0]? ≠ some i := by
        rw [← List.head?_eq_getElem?]
        exact hframe ⟨i, tags⟩ List.mem_cons_self
      simp [Frame.fill, forAllReplaceRewriter, hpos, hfirst, hrest, rebuilt]
    | whereConsumer stmt | sequenceMutation stmt | assembleCompute stmt _ | multiSecond stmt =>
      simp [Frame.fill, forAllReplaceRewriter, rewriter_kept hne hframe, hrest, rebuiltPair]
    | whereProducer stmt | sequenceDefinition stmt | assembleQueries stmt _ | multiFirst stmt =>
      simp [Frame.fill, forAllReplaceRewriter, rewriter_found (le_refl pattern.length), hrest, rebuiltPair]
    | suchThat predicate => simp [Frame.fill, forAllReplaceRewriter, hrest, rebuilt]

end Rewriter

/-! ### ForAllReplace -/

section Apply

variable {getName : IndexVar → String} {stmt result : IndexStmt}

/-- A statement in which directly nested loops over the pattern are replaced is returned, or a reason. -/
def ForAllReplace.Sound (getName : IndexVar → String) (t : ForAllReplace) (stmt : IndexStmt) : Prop :=
  match t.apply getName stmt with
  | .ok result => Replaced t.pattern t.replacement stmt result
  | .error reason => reason ≠ ""

/-- A text that begins with some other is not empty. -/
theorem append_ne {a b : String} (h : a ≠ "") : a ++ b ≠ "" := fun heq => h (String.append_eq_empty_iff.mp heq).1

theorem ForAllReplace.of_apply {t : ForAllReplace} (h : t.apply getName stmt = .ok result) :
    isConcreteNotation getName stmt = none ∧ t.pattern ≠ [] ∧ Replaced t.pattern t.replacement stmt result := by
  rw [apply] at h
  cases hconcrete : isConcreteNotation getName stmt with
  | some r => simp [hconcrete] at h
  | none =>
    refine ⟨rfl, ?_⟩
    simp only [hconcrete] at h
    split at h
    · obtain rfl := Except.ok.inj h
      rename_i matched hrewriter
      by_cases hne : t.pattern = []
      · rw [rewriter_found (by rw [hne]; exact Nat.zero_le 0)] at hrewriter
        cases (Prod.mk.inj hrewriter).1
      · obtain ⟨hnone, -⟩ | ⟨-, result, hresult, hreplaced⟩ := rewriter_outcome hne hrewriter
        · cases hnone
        · exact ⟨hne, Option.some.inj hresult ▸ hreplaced⟩
    · cases h
    · cases h

theorem ForAllReplace.reason_ne {t : ForAllReplace} {reason : String} (h : t.apply getName stmt = .error reason) : reason ≠ "" := by
  have hconcrete : "The index statement is not valid concrete index notation: " ≠ "" := by decide
  have hpattern : "The pattern of ForAlls: " ≠ "" := by decide
  rw [apply] at h
  split at h
  · obtain rfl := Except.error.inj h
    exact append_ne hconcrete
  · split at h
    · cases h
    all_goals
      obtain rfl := Except.error.inj h
      exact append_ne (append_ne (append_ne hpattern))

theorem ForAllReplace.sound (t : ForAllReplace) (stmt : IndexStmt) : t.Sound getName stmt := by
  rw [Sound]
  cases h : t.apply getName stmt with
  | ok result => exact (of_apply h).2.2
  | error reason => exact reason_ne h

/-! ### Reorder -/

namespace Reorder

variable {r : Reorder} {pattern : List IndexVar} {loops : List Loop} {c : Context} {body : IndexStmt}

theorem newOrdering_perm (r : Reorder) (currentOrdering : List IndexVar) :
    (r.newOrdering currentOrdering).Perm r.getreplacepattern := by
  cases r with
  | pair i j =>
    rw [newOrdering, getreplacepattern]
    split_ifs
    · exact List.Perm.swap _ _ _
    · exact List.Perm.refl _
  | ordered replacePattern => exact List.Perm.refl _

theorem fst_matchLoops (st : List IndexVar × Bool) :
    (loops.foldl (matchLoop pattern) st).1 = st.1 ++ (loops.filter (isMatch pattern)).map Loop.indexVar := by
  induction loops generalizing st with
  | nil => simp
  | cons loop loops ih =>
    rw [List.foldl_cons, ih, matchLoop]
    by_cases hmatch : isMatch pattern loop = true
    · rw [if_pos hmatch, List.filter_cons_of_pos hmatch, List.map_cons, List.append_assoc]
      rfl
    · rw [if_neg hmatch, List.filter_cons_of_neg hmatch]

/-- Other loops before the first and after the last loop of the pattern do no harm. -/
theorem matchLoops_others {st : List IndexVar × Bool} (h : loops.filter (isMatch pattern) = [])
    (hst : st.1 = [] ∨ st.1.length = pattern.length) : loops.foldl (matchLoop pattern) st = st := by
  induction loops with
  | nil => rfl
  | cons loop loops ih =>
    rw [List.filter_eq_nil_iff] at h
    have hother : ¬ isMatch pattern loop = true := h loop List.mem_cons_self
    have hstep : matchLoop pattern st loop = st := by
      have hfailed : (!st.1.isEmpty && decide (st.1.length ≠ pattern.length)) = false := by
        rcases hst with hst | hst <;> simp [hst]
      rw [matchLoop, if_neg hother, hfailed, Bool.or_false]
    rw [List.foldl_cons, hstep]
    exact ih (List.filter_eq_nil_iff.mpr fun loop hloop => h loop (List.mem_cons_of_mem _ hloop))

theorem matchLoops_isMatch {st : List IndexVar × Bool} (h : ∀ loop ∈ loops, isMatch pattern loop = true) :
    loops.foldl (matchLoop pattern) st = (st.1 ++ loops.map Loop.indexVar, st.2) := by
  induction loops generalizing st with
  | nil => simp
  | cons loop loops ih =>
    rw [List.foldl_cons, ih fun loop hloop => h loop (List.mem_cons_of_mem _ hloop), matchLoop,
      if_pos (h loop List.mem_cons_self), List.append_assoc]
    rfl

/-- Directly nested loops over the pattern are among the loops over it. -/
theorem sublist_filter (heq : stmt = Context.fill c (IndexStmt.nest loops body)) (hmatch : ∀ loop ∈ loops, isMatch pattern loop = true) :
    loops.Sublist (stmt.loops.filter (isMatch pattern)) := by
  have hmem : loops.Sublist stmt.loops := by
    rw [heq, Context.loops_fill, IndexStmt.loops_nest, List.append_assoc]
    exact ((List.sublist_append_left loops _).trans (List.sublist_append_left _ _)).trans (List.sublist_append_right _ _)
  have hfiltered := hmem.filter (isMatch pattern)
  rwa [List.filter_eq_self.mpr hmatch] at hfiltered

/-- The loops over variables of the pattern are directly nested, and as many as the pattern has variables. -/
structure Nested (r : Reorder) (stmt : IndexStmt) (c : Context) (loops : List Loop) (body : IndexStmt) : Prop where
  eq_fill : stmt = Context.fill c (IndexStmt.nest loops body)
  filter_loops : stmt.loops.filter (isMatch r.getreplacepattern) = loops
  length_eq : loops.length = r.getreplacepattern.length
  ne_nil : loops ≠ []

namespace Nested

theorem isMatch_of_mem (h : r.Nested stmt c loops body) : ∀ loop ∈ loops, isMatch r.getreplacepattern loop = true := by
  intro loop hloop
  rw [← h.filter_loops] at hloop
  exact (List.mem_filter.mp hloop).2

theorem loops_eq (h : r.Nested stmt c loops body) : stmt.loops = Context.before c ++ (loops ++ body.loops) ++ Context.after c := by
  rw [h.eq_fill, Context.loops_fill, IndexStmt.loops_nest]

/-- No other loop is over a variable of the pattern. -/
theorem others (h : r.Nested stmt c loops body) : (Context.before c).filter (isMatch r.getreplacepattern) = [] ∧
    body.loops.filter (isMatch r.getreplacepattern) = [] ∧ (Context.after c).filter (isMatch r.getreplacepattern) = [] := by
  have hfilter := h.filter_loops
  rw [h.loops_eq, List.filter_append, List.filter_append, List.filter_append, List.filter_eq_self.mpr h.isMatch_of_mem] at hfilter
  have hlength := congrArg List.length hfilter
  simp only [List.length_append] at hlength
  exact ⟨List.eq_nil_of_length_eq_zero (by omega), List.eq_nil_of_length_eq_zero (by omega),
    List.eq_nil_of_length_eq_zero (by omega)⟩

theorem matchLoops_eq (h : r.Nested stmt c loops body) :
    matchLoops r.getreplacepattern stmt.loops = (loops.map Loop.indexVar, false) := by
  obtain ⟨hbefore, hbody, hafter⟩ := h.others
  have hlength : (loops.map Loop.indexVar).length = r.getreplacepattern.length := by rw [List.length_map, h.length_eq]
  rw [matchLoops, h.loops_eq, List.foldl_append, List.foldl_append, List.foldl_append, matchLoops_others hbefore (Or.inl rfl),
    matchLoops_isMatch h.isMatch_of_mem, List.nil_append, matchLoops_others hbody (Or.inr hlength),
    matchLoops_others hafter (Or.inr hlength)]

end Nested

/-- The reordering is done exactly on concrete statements whose loops over the pattern are directly nested. -/
theorem apply_ok_iff : r.apply getName stmt = .ok result ↔ isConcreteNotation getName stmt = none ∧
    ∃ c loops body, r.Nested stmt c loops body ∧
      result = Context.fill c (IndexStmt.nest (newLoops (r.newOrdering (loops.map Loop.indexVar))) body) := by
  cases hconcrete : isConcreteNotation getName stmt with
  | some reason => simp [apply, hconcrete]
  | none =>
    simp only [apply, hconcrete, true_and]
    have hlengths : ∀ vars, (r.newOrdering vars).length = r.getreplacepattern.length := fun vars =>
      (r.newOrdering_perm vars).length_eq
    constructor
    · intro h
      split_ifs at h with hfailed
      simp only [Bool.or_eq_true, decide_eq_true_eq, not_or, not_not] at hfailed
      obtain ⟨-, hne, c, loops, body, hvars, heq, hresult⟩ := ForAllReplace.of_apply h
      have hordering : (matchLoops r.getreplacepattern stmt.loops).1 =
          (stmt.loops.filter (isMatch r.getreplacepattern)).map Loop.indexVar := fst_matchLoops _
      dsimp only at hvars
      have hmatch : ∀ loop ∈ loops, isMatch r.getreplacepattern loop = true := by
        intro loop hloop
        have hvar : loop.indexVar ∈ (stmt.loops.filter (isMatch r.getreplacepattern)).map Loop.indexVar := by
          rw [← hordering, ← hvars]
          exact List.mem_map_of_mem hloop
        obtain ⟨other, hother, hsame⟩ := List.mem_map.mp hvar
        rw [isMatch, ← hsame]
        exact (List.mem_filter.mp hother).2
      have hfilter : stmt.loops.filter (isMatch r.getreplacepattern) = loops := by
        refine ((sublist_filter heq hmatch).eq_of_length ?_).symm
        rw [← List.length_map Loop.indexVar, hvars, hordering, List.length_map]
      refine ⟨c, loops, body, ⟨heq, hfilter, ?_, ?_⟩, by rw [hresult, hvars]⟩
      · rw [← List.length_map Loop.indexVar, hvars, hfailed.2, hlengths]
      · rintro rfl
        exact hne hvars.symm
    · rintro ⟨c, loops, body, hnested, rfl⟩
      have hvars : loops.map Loop.indexVar ≠ [] := fun h => hnested.ne_nil (List.map_eq_nil_iff.mp h)
      have hbefore : ∀ loop ∈ Context.before c, (loops.map Loop.indexVar).head? ≠ some loop.indexVar := by
        intro loop hloop hhead
        obtain ⟨first, rest, rfl⟩ := List.exists_cons_of_ne_nil hnested.ne_nil
        have hsame : first.indexVar = loop.indexVar := Option.some.inj hhead
        have hfirst := hnested.isMatch_of_mem first List.mem_cons_self
        rw [isMatch, hsame, ← isMatch] at hfirst
        exact List.filter_eq_nil_iff.mp hnested.others.1 loop hloop hfirst
      have hrewriter : forAllReplaceRewriter (loops.map Loop.indexVar) (r.newOrdering (loops.map Loop.indexVar)) (some 0)
          (Context.fill c (IndexStmt.nest loops body)) = _ := rewriter_fill hvars rfl hbefore
      rw [hnested.matchLoops_eq, if_neg (by simp [hlengths, hnested.length_eq]), ForAllReplace.apply, hconcrete]
      simp only
      rw [hnested.eq_fill, hrewriter]

theorem reason_ne {reason : String} (h : r.apply getName stmt = .error reason) : reason ≠ "" := by
  have hconcrete : "The index statement is not valid concrete index notation: " ≠ "" := by decide
  have hforalls : "The foralls of reorder pattern: " ≠ "" := by decide
  rw [apply] at h
  split at h
  · obtain rfl := Except.error.inj h
    exact append_ne hconcrete
  · dsimp only at h
    split_ifs at h
    · obtain rfl := Except.error.inj h
      exact append_ne (append_ne hforalls)
    · exact ForAllReplace.reason_ne h

/-- A statement in which directly nested loops over exactly the pattern are replaced is returned, or a reason. -/
def Sound (getName : IndexVar → String) (r : Reorder) (stmt : IndexStmt) : Prop :=
  match r.apply getName stmt with
  | .ok result => ∃ c loops body, (loops.map Loop.indexVar).Perm r.getreplacepattern ∧
      stmt = Context.fill c (IndexStmt.nest loops body) ∧
      result = Context.fill c (IndexStmt.nest (newLoops (r.newOrdering (loops.map Loop.indexVar))) body)
  | .error reason => reason ≠ ""

/-- The loops over variables of the pattern are directly nested, as many as the pattern has variables, and repeat one of
    them instead of another. -/
def Repeats (getName : IndexVar → String) (r : Reorder) (stmt : IndexStmt) : Prop :=
  isConcreteNotation getName stmt = none ∧
    ∃ c loops body, r.Nested stmt c loops body ∧ ¬ (loops.map Loop.indexVar).Perm r.getreplacepattern

theorem sound_eq_not_repeats (r : Reorder) (stmt : IndexStmt) : r.Sound getName stmt ↔ ¬ r.Repeats getName stmt := by
  constructor
  · rintro hsound ⟨hconcrete, c, loops, body, hnested, hdiff⟩
    rw [Sound, apply_ok_iff.mpr ⟨hconcrete, c, loops, body, hnested, rfl⟩] at hsound
    obtain ⟨c', loops', body', hperm, heq, -⟩ := hsound
    have hmatch : ∀ loop ∈ loops', isMatch r.getreplacepattern loop = true := fun loop hloop =>
      List.contains_iff_mem.mpr (hperm.subset (List.mem_map_of_mem hloop))
    have hlength : loops'.length = loops.length := by
      rw [hnested.length_eq, ← hperm.length_eq, List.length_map]
    have hsub := sublist_filter heq hmatch
    rw [hnested.filter_loops] at hsub
    exact hdiff (hsub.eq_of_length hlength ▸ hperm)
  · intro hrepeats
    rw [Sound]
    cases h : r.apply getName stmt with
    | ok result =>
      obtain ⟨hconcrete, c, loops, body, hnested, hresult⟩ := apply_ok_iff.mp h
      exact ⟨c, loops, body, not_not.mp fun hdiff => hrepeats ⟨hconcrete, c, loops, body, hnested, hdiff⟩, hnested.eq_fill, hresult⟩
    | error reason => exact reason_ne h

end Reorder

end Apply

/-- Loops are replaced where they stand and nowhere else; a reordering does so exactly if the loops over its pattern do not
    repeat a variable. -/
theorem replacement_iff (getName : IndexVar → String) :
    (∀ (t : ForAllReplace) (stmt : IndexStmt), t.Sound getName stmt) ∧
      ∀ (r : Reorder) (stmt : IndexStmt), r.Sound getName stmt ↔ ¬ r.Repeats getName stmt :=
  ⟨fun t stmt => t.sound stmt, fun r stmt => r.sound_eq_not_repeats stmt⟩

/-- `forall(i, forall(i, a(i) = b(i)))`. -/
def boundTwice : IndexStmt :=
  .nest [⟨0, .none⟩, ⟨0, .none⟩]
    (.assignment ((TensorVar.dense 0 [3]).access [0] (by decide)) (.access ((TensorVar.dense 1 [3]).access [0] (by decide)))
      .undefined)

/-- The inner loop over `i` becomes one over `j`, which the body does not have. -/
theorem boundTwice_not_sound :
    ¬ ∀ (getName : IndexVar → String) (r : Reorder) (stmt : IndexStmt), r.Sound getName stmt := by
  intro h
  refine ((Reorder.sound_eq_not_repeats (.pair 0 1) boundTwice).mp (h (fun _ => "i") _ _))
    ⟨by decide, [], [⟨0, .none⟩, ⟨0, .none⟩], _, ⟨rfl, by decide, rfl, List.cons_ne_nil _ _⟩, by decide⟩

end Notation
end Taco
