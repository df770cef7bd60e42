import Taco.Parser.ParserSound

/-! What is in the grammar, and is not gone on with, the parser accepts. -/

namespace Taco
namespace Parser

variable {L : Type} [Lexing L] {α β : Type}

/-! ### Enough rounds -/

/-- With enough rounds the result is this. -/
def Yields (f : ℕ → Run α) (a : α) : Prop := ∃ bound, ∀ n ≥ bound, f n = pure a

theorem Yields.const (a : α) : Yields (fun _ => pure a) a := ⟨0, fun _ _ => rfl⟩

theorem Yields.congr {f g : ℕ → Run α} {a : α} (h : Yields f a) (hg : ∀ n, g n = f n) : Yields g a := by
  rwa [show g = f from funext hg]

theorem Yields.of_succ {f : ℕ → Run α} {a : α} (h : Yields (fun n => f (n + 1)) a) : Yields f a := by
  obtain ⟨bound, hbound⟩ := h
  refine ⟨bound + 1, fun n hn => ?_⟩
  obtain ⟨m, rfl⟩ := Nat.exists_eq_add_of_le' (Nat.le_trans (Nat.le_add_left 1 bound) hn)
  exact hbound m (Nat.le_of_add_le_add_right hn)

theorem Yields.bind {f : ℕ → Run α} {g : α → ℕ → Run β} {a : α} {b : β} (h : Yields f a) (hg : Yields (g a) b) :
    Yields (fun n => f n >>= fun a => g a n) b := by
  obtain ⟨m, hm⟩ := h
  obtain ⟨m', hm'⟩ := hg
  refine ⟨max m m', fun n hn => ?_⟩
  dsimp only
  rw [hm n (le_trans (le_max_left _ _) hn), pure_bind, hm' n (le_trans (le_max_right _ _) hn)]

theorem Yields.unique {f : ℕ → Run α} {a b : α} (h : Yields f a) (h' : Yields f b) : a = b := by
  obtain ⟨m, hm⟩ := h
  obtain ⟨m', hm'⟩ := h'
  exact pure_inj ((hm _ (le_max_left m m')).symm.trans (hm' _ (le_max_right m m')))

/-! ### Steps -/

/-- With enough rounds the lexer goes on to the next token. -/
def Moves (p q : Content L) : Prop := ∃ bound, ∀ n ≥ bound, nextToken n p.lexer = some q

theorem Feeds.split {R : Content L → Content L → Prop} {p q : Content L} {ls ls' : List Lexeme}
    (h : Feeds R p (ls ++ ls') q) : ∃ r, Feeds R p ls r ∧ Feeds R r ls' q := by
  induction ls generalizing p with
  | nil => exact ⟨p, .nil, h⟩
  | cons x ls ih =>
    cases h with
    | cons hstep h =>
      obtain ⟨r, hr, hr'⟩ := ih h
      exact ⟨r, .cons hstep hr, hr'⟩

theorem Feeds.uncons {R : Content L → Content L → Prop} {p q : Content L} {x : Lexeme} {ls : List Lexeme}
    (h : Feeds R p (x :: ls) q) : x = lexeme p ∧ ∃ r, R p r ∧ Feeds R r ls q := by
  cases h with
  | cons hstep h => exact ⟨rfl, _, hstep, h⟩

theorem Feeds.eq_of_nil {R : Content L → Content L → Prop} {p q : Content L} (h : Feeds R p [] q) : p = q := by
  cases h
  rfl

theorem yields_consume {p q : Content L} {expected : Token} (hp : p.currentToken = expected) (h : Moves p q) :
    Yields (fun n => consume n expected p) q := by
  obtain ⟨bound, hbound⟩ := h
  refine ⟨bound, fun n hn => ?_⟩
  dsimp only
  rw [consume, if_neg (not_not.mpr hp), hbound n hn]
  rfl

/-! ### Accesses -/

theorem yields_parseVar {p q : Content L} (hp : p.currentToken = .identifier) (h : Moves p q) :
    Yields (fun n => parseVar n p) ((lexeme p).identifier, q) := by
  refine Yields.congr ((yields_consume hp h).bind (g := fun q _ => pure ((lexeme p).identifier, q)) (.const _)) fun n => ?_
  rw [parseVar, if_neg (not_not.mpr hp), lexeme_identifier (by rw [hp]; rfl)]

/-- The loop goes on behind the variables that were read. -/
theorem yields_parseVarList {p q : Content L} {ls : List Lexeme} {vars : List (List Char)}
    {r : List (List Char) × Content L} (hvars : VarList ls vars) (h : Feeds Moves p ls q)
    (hr : Yields (fun n => varListLoop n vars q) r) : Yields (fun n => parseVarList n p) r := by
  induction hvars generalizing q with
  | var hx =>
    obtain ⟨rfl, s, hs, h⟩ := h.uncons
    cases h.eq_of_nil
    exact (yields_parseVar hx hs).bind hr
  | @comma ls vars c x hvars hc hx ih =>
    obtain ⟨s, hs, h⟩ := h.split
    obtain ⟨rfl, t, ht, h⟩ := h.uncons
    obtain ⟨rfl, u, hu, h⟩ := h.uncons
    cases h.eq_of_nil
    refine ih hs (Yields.of_succ ?_)
    refine Yields.congr (f := fun n => consume n .comma s >>= fun p => parseVar n p >>= fun a =>
      varListLoop n (vars ++ [a.1]) a.2) ?_ fun n => by rw [varListLoop, if_pos (by exact hc)]
    exact (yields_consume hc ht).bind ((yields_parseVar hx hu).bind hr)

/-- A list of variables ends where no comma follows. -/
theorem yields_varList {p q : Content L} {ls : List Lexeme} {vars : List (List Char)} (hvars : VarList ls vars)
    (h : Feeds Moves p ls q) (hq : q.currentToken ≠ .comma) : Yields (fun n => parseVarList n p) (vars, q) := by
  refine yields_parseVarList hvars h (Yields.of_succ (Yields.congr (.const _) fun n => ?_))
  rw [varListLoop, if_neg hq]

theorem yields_parseAccess {p q : Content L} {ls : List Lexeme} {a : Access} (ha : Accesses ls a) (h : Feeds Moves p ls q)
    (hopen : ¬ Opens ls q.currentToken) : Yields (fun n => parseAccess n p) (a, q) := by
  have hname : p.currentToken = .identifier → (lexeme p).identifier = Lexing.getIdentifier p.lexer := fun hp =>
    lexeme_identifier (by rw [hp]; rfl)
  cases ha with
  | @parens x l close ls vars hx hl hvars hclose =>
    obtain ⟨rfl, r, hr, h⟩ := h.uncons
    obtain ⟨rfl, s, hs, h⟩ := h.uncons
    obtain ⟨t, ht, h⟩ := h.split
    obtain ⟨rfl, u, hu, h⟩ := h.uncons
    cases h.eq_of_nil
    rw [lexeme_token] at hx hl hclose
    rw [hname hx]
    unfold parseAccess
    simp only [if_neg (not_not.mpr hx)]
    refine (yields_consume hx hr).bind ?_
    simp only [if_neg (show r.currentToken ≠ .underscore by simp [hl]), if_pos hl]
    refine (yields_consume hl hs).bind ?_
    refine (yields_varList hvars ht (by simp [hclose])).bind ?_
    exact (yields_consume hclose hu).bind (.const _)
  | @braces x u l close ls vars hx hu hl hvars hclose =>
    obtain ⟨rfl, r, hr, h⟩ := h.uncons
    obtain ⟨rfl, s, hs, h⟩ := h.uncons
    obtain ⟨rfl, t, ht, h⟩ := h.uncons
    obtain ⟨v, hv, h⟩ := h.split
    obtain ⟨rfl, w, hw, h⟩ := h.uncons
    cases h.eq_of_nil
    rw [lexeme_token] at hx hu hl hclose
    rw [hname hx]
    unfold parseAccess
    simp only [if_neg (not_not.mpr hx)]
    refine (yields_consume hx hr).bind ?_
    simp only [if_pos hu]
    refine (yields_consume hu hs).bind ?_
    simp only [if_pos hl]
    refine (yields_consume hl ht).bind ?_
    refine (yields_varList hvars hv (by simp [hclose])).bind ?_
    exact (yields_consume hclose hw).bind (.const _)
  | @var x u v hx hu hv =>
    obtain ⟨rfl, r, hr, h⟩ := h.uncons
    obtain ⟨rfl, s, hs, h⟩ := h.uncons
    obtain ⟨rfl, t, ht, h⟩ := h.uncons
    cases h.eq_of_nil
    rw [lexeme_token] at hx hu hv
    rw [hname hx]
    unfold parseAccess
    simp only [if_neg (not_not.mpr hx)]
    refine (yields_consume hx hr).bind ?_
    simp only [if_pos hu]
    refine (yields_consume hu hs).bind ?_
    simp only [if_neg (show s.currentToken ≠ .lcurly by simp [hv])]
    exact (yields_parseVar hv ht).bind (.const _)
  | name hx =>
    obtain ⟨rfl, r, hr, h⟩ := h.uncons
    cases h.eq_of_nil
    rw [lexeme_token] at hx
    have hlast : isOpen [lexeme p] = true := by simp [isOpen, hx]
    rw [hname hx]
    unfold parseAccess
    simp only [if_neg (not_not.mpr hx)]
    refine (yields_consume hx hr).bind ?_
    simp only [if_neg (fun hu => hopen ⟨.inl hu, hlast⟩), if_neg (fun hl => hopen ⟨.inr hl, hlast⟩)]
    exact .const _

/-! ### Expressions -/

/-- How lexemes that stand for an expression are read: a loop goes on behind those of a kind with one. -/
def Completes (L : Type) [Lexing L] : Symbol → List Lexeme → IndexExpr → Prop
  | .expr, ls, e => ∀ (p q : Content L) r, Feeds Moves p ls q → ¬ GoesOn .term ls q.currentToken →
    Yields (fun n => exprLoop n e q) r → Yields (fun n => parseExpr n p) r
  | .term, ls, e => ∀ (p q : Content L) r, Feeds Moves p ls q → ¬ Opens ls q.currentToken →
    Yields (fun n => termLoop n e q) r → Yields (fun n => parseTerm n p) r
  | .factor, ls, e => ∀ p q : Content L, Feeds Moves p ls q → ¬ Opens ls q.currentToken →
    Yields (fun n => parseFactor n p) (e, q)
  | .final, ls, e => ∀ p q : Content L, Feeds Moves p ls q → ¬ Opens ls q.currentToken →
    Yields (fun n => parseFinal n p) (e, q) ∧ p.currentToken ≠ .lparen ∧ p.currentToken ≠ .sub

theorem Accesses.head {ls : List Lexeme} {a : Access} (h : Accesses ls a) : ∃ x ls', ls = x :: ls' ∧ x.token = .identifier := by
  cases h <;> exact ⟨_, _, rfl, by assumption⟩

theorem completes_access {ls : List Lexeme} {a : Access} (ha : Accesses ls a) : Completes L .final ls (.access a) := by
  intro p q h hopen
  obtain ⟨x, ls', hls, hx⟩ := ha.head
  have hp : p.currentToken = .identifier := by
    rw [hls] at h
    obtain ⟨rfl, -⟩ := h.uncons
    exact hx
  refine ⟨?_, by simp [hp], by simp [hp]⟩
  unfold parseFinal
  simp only [if_neg (show ¬ isScalar p.currentToken = true by rw [hp]; decide)]
  exact (yields_parseAccess ha h hopen).bind (.const _)

theorem completes_scalar {x : Lexeme} (hx : isScalar x.token = true) :
    Completes L .final [x] (.literal (scalar x.token x.identifier)) := by
  intro p q h hopen
  obtain ⟨rfl, r, hr, h⟩ := h.uncons
  cases h.eq_of_nil
  rw [lexeme_token] at hx
  have hne : ∀ token, isScalar token = false → p.currentToken ≠ token := by
    rintro token htoken rfl
    rw [htoken] at hx
    cases hx
  refine ⟨?_, hne _ rfl, hne _ rfl⟩
  rw [lexeme_identifier (by simp [hasWord, hx])]
  unfold parseFinal
  simp only [if_pos hx]
  exact (yields_consume rfl hr).bind (.const _)

theorem completes_final {ls : List Lexeme} {e : IndexExpr} (ih : Completes L .final ls e) : Completes L .factor ls e := by
  intro p q h hopen
  obtain ⟨hfinal, hparen, hsub⟩ := ih p q h hopen
  refine Yields.of_succ (Yields.congr hfinal fun n => ?_)
  rw [parseFactor, if_neg hparen, if_neg hsub]

theorem not_goesOn_close {s : Symbol} {ls : List Lexeme} {token : Token} (h : token = .rparen ∨ token = .eot) :
    ¬ GoesOn s ls token := by
  rcases h with rfl | rfl <;> cases s <;> simp [GoesOn, Continues, Opens]

/-- Behind what no operator follows, the loop over terms ends. -/
theorem yields_expr {ls : List Lexeme} {e : IndexExpr} (ih : Completes L .expr ls e) {p q : Content L}
    (h : Feeds Moves p ls q) (hq : ¬ GoesOn .expr ls q.currentToken) : Yields (fun n => parseExpr n p) (e, q) := by
  refine ih p q _ h (fun hterm => hq (.inr (.inr hterm))) (Yields.of_succ (Yields.congr (.const _) fun n => ?_))
  rw [exprLoop, if_neg fun ha => hq (.inl ha), if_neg fun hs => hq (.inr (.inl hs))]

theorem yields_term {ls : List Lexeme} {e : IndexExpr} (ih : Completes L .term ls e) {p q : Content L}
    (h : Feeds Moves p ls q) (hq : ¬ GoesOn .term ls q.currentToken) : Yields (fun n => parseTerm n p) (e, q) := by
  refine ih p q _ h (fun hopen => hq (.inr (.inr hopen))) (Yields.of_succ (Yields.congr (.const _) fun n => ?_))
  rw [termLoop, if_neg fun hm => hq (.inl hm), if_neg fun hd => hq (.inr (.inl hd))]

theorem completes_parens {ls : List Lexeme} {e : IndexExpr} {l r : Lexeme} (hl : l.token = .lparen)
    (hr : r.token = .rparen) (ih : Completes L .expr ls e) : Completes L .factor (l :: (ls ++ [r])) e := by
  intro p q h hopen
  obtain ⟨rfl, s, hs, h⟩ := h.uncons
  obtain ⟨t, ht, h⟩ := h.split
  obtain ⟨rfl, u, hu, h⟩ := h.uncons
  cases h.eq_of_nil
  refine Yields.of_succ ?_
  rw [lexeme_token] at hl hr
  simp only [parseFactor, if_pos hl]
  refine (yields_consume hl hs).bind ?_
  refine (yields_expr ih ht (not_goesOn_close (.inl hr))).bind ?_
  exact (yields_consume hr hu).bind (.const _)

theorem completes_neg {ls : List Lexeme} {e : IndexExpr} {x : Lexeme} (hx : x.token = .sub) (hne : ls ≠ [])
    (ih : Completes L .factor ls e) : Completes L .factor (x :: ls) e.neg := by
  intro p q h hopen
  have hopen' : ¬ Opens ls q.currentToken := fun ho => hopen ((@opens_append _ [] _ _ (by simp [hx]) hne).mpr ho)
  obtain ⟨rfl, s, hs, h⟩ := h.uncons
  rw [lexeme_token] at hx
  refine Yields.of_succ ?_
  simp only [parseFactor, if_neg (show p.currentToken ≠ .lparen by simp [hx]), if_pos hx]
  exact (yields_consume hx hs).bind ((ih s q h hopen').bind (.const _))

theorem completes_factor {ls : List Lexeme} {e : IndexExpr} (ih : Completes L .factor ls e) : Completes L .term ls e := by
  intro p q r h hopen hr
  refine Yields.of_succ ?_
  simp only [parseTerm]
  exact (ih p q h hopen).bind hr

theorem completes_term {ls : List Lexeme} {e : IndexExpr} (ih : Completes L .term ls e) : Completes L .expr ls e := by
  intro p q r h hterm hr
  refine Yields.of_succ ?_
  simp only [parseExpr]
  exact (yields_term ih h hterm).bind hr

/-- An operator between factors, from the loop that has read the factors before it. -/
theorem completes_mulDiv {ls ls' : List Lexeme} {a b : IndexExpr} {x : Lexeme} (iha : Completes L .term ls a)
    (ihb : Completes L .factor ls' b) (hne : ls' ≠ []) :
    (x.token = .mul → Completes L .term (ls ++ x :: ls') (a.mul b)) ∧
    (x.token = .div → Completes L .term (ls ++ x :: ls') (a.div b)) := by
  constructor
  · intro hx p q r h hopen hr
    rw [opens_append (by simp [hx]) hne] at hopen
    obtain ⟨s, hs, h⟩ := h.split
    obtain ⟨rfl, t, ht, h⟩ := h.uncons
    rw [lexeme_token] at hx
    refine iha p s r hs (by simp [Opens, hx]) (Yields.of_succ ?_)
    simp only [termLoop, if_pos hx]
    exact (yields_consume hx ht).bind ((ihb t q h hopen).bind hr)
  · intro hx p q r h hopen hr
    rw [opens_append (by simp [hx]) hne] at hopen
    obtain ⟨s, hs, h⟩ := h.split
    obtain ⟨rfl, t, ht, h⟩ := h.uncons
    rw [lexeme_token] at hx
    refine iha p s r hs (by simp [Opens, hx]) (Yields.of_succ ?_)
    simp only [termLoop, if_neg (show s.currentToken ≠ .mul by simp [hx]), if_pos hx]
    exact (yields_consume hx ht).bind ((ihb t q h hopen).bind hr)

/-- An operator between terms, from the loop that has read the terms before it. -/
theorem completes_addSub {ls ls' : List Lexeme} {a b : IndexExpr} {x : Lexeme} (iha : Completes L .expr ls a)
    (ihb : Completes L .term ls' b) (hne : ls' ≠ []) :
    (x.token = .add → Completes L .expr (ls ++ x :: ls') (a.add b)) ∧
    (x.token = .sub → Completes L .expr (ls ++ x :: ls') (a.sub b)) := by
  constructor
  · intro hx p q r h hterm hr
    simp only [GoesOn, opens_append (show x.token ≠ .underscore by simp [hx]) hne] at hterm
    obtain ⟨s, hs, h⟩ := h.split
    obtain ⟨rfl, t, ht, h⟩ := h.uncons
    rw [lexeme_token] at hx
    refine iha p s r hs (by simp [GoesOn, Opens, hx]) (Yields.of_succ ?_)
    simp only [exprLoop, if_pos hx]
    exact (yields_consume hx ht).bind ((yields_term ihb h hterm).bind hr)
  · intro hx p q r h hterm hr
    simp only [GoesOn, opens_append (show x.token ≠ .underscore by simp [hx]) hne] at hterm
    obtain ⟨s, hs, h⟩ := h.split
    obtain ⟨rfl, t, ht, h⟩ := h.uncons
    rw [lexeme_token] at hx
    refine iha p s r hs (by simp [GoesOn, Opens, hx]) (Yields.of_succ ?_)
    simp only [exprLoop, if_neg (show s.currentToken ≠ .add by simp [hx]), if_pos hx]
    exact (yields_consume hx ht).bind ((yields_term ihb h hterm).bind hr)

theorem Derives.completes {s : Symbol} {ls : List Lexeme} {e : IndexExpr} (h : Derives s ls e) : Completes L s ls e := by
  induction h with
  | term _ ih => exact completes_term ih
  | add _ hx hb iha ihb => exact (completes_addSub iha ihb hb.ne_nil).1 hx
  | sub _ hx hb iha ihb => exact (completes_addSub iha ihb hb.ne_nil).2 hx
  | factor _ ih => exact completes_factor ih
  | mul _ hx hb iha ihb => exact (completes_mulDiv iha ihb hb.ne_nil).1 hx
  | div _ hx hb iha ihb => exact (completes_mulDiv iha ihb hb.ne_nil).2 hx
  | final _ ih => exact completes_final ih
  | parens hl _ hr ih => exact completes_parens hl hr ih
  | neg hx ha ih => exact completes_neg hx ha.ne_nil ih
  | access ha => exact completes_access ha
  | scalar hx => exact completes_scalar hx

theorem continues_append {x : Lexeme} {ls ls' : List Lexeme} {token : Token} (hx : x.token = .eq) (hne : ls' ≠ []) :
    Continues (ls ++ x :: ls') token ↔ Continues ls' token := by
  rw [Continues, Continues, isOpen_append (by simp [hx]) hne]

/-- An assignment that no token goes on with is parsed. -/
theorem yields_parseAssign {p q : Content L} {ls : List Lexeme} {a : Assignment} (ha : Assigns ls a)
    (h : Feeds Moves p ls q) (hq : ¬ Continues ls q.currentToken) : Yields (fun n => parseAssign n p) (a, q) := by
  cases ha with
  | @assign ls ls' lhs x e hlhs hx he =>
    rw [continues_append hx he.ne_nil] at hq
    obtain ⟨r, hr, h⟩ := h.split
    obtain ⟨rfl, s, hs, h⟩ := h.uncons
    rw [lexeme_token] at hx
    unfold parseAssign
    refine (yields_parseAccess hlhs hr (by simp [Opens, hx])).bind ?_
    simp only [if_neg (show r.currentToken ≠ .add by simp [hx])]
    exact (yields_consume hx hs).bind ((yields_expr he.completes h hq).bind (.const _))
  | @accumulate ls ls' lhs x y e hlhs hx hy he =>
    rw [List.append_cons, continues_append hy he.ne_nil] at hq
    obtain ⟨r, hr, h⟩ := h.split
    obtain ⟨rfl, s, hs, h⟩ := h.uncons
    obtain ⟨rfl, t, ht, h⟩ := h.uncons
    rw [lexeme_token] at hx hy
    unfold parseAssign
    refine (yields_parseAccess hlhs hr (by simp [Opens, hx])).bind ?_
    simp only [if_pos hx]
    exact (yields_consume hx hs).bind ((yields_consume hy ht).bind ((yields_expr he.completes h hq).bind (.const _)))

end Parser
end Taco
