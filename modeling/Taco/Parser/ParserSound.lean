import Taco.Parser.Parser

/-! What the parser accepts is in its grammar. -/

namespace Taco
namespace Parser

variable {L : Type} [Lexing L] {α β : Type}

/-! ### Runs -/

theorem pure_of_bind {x : Run α} {f : α → Run β} {b : β} (h : x >>= f = pure b) : ∃ a, x = pure a ∧ f a = pure b := by
  match x, h with
  | some (.ok a), h => exact ⟨a, rfl, h⟩
  | some (.error _), h => cases h
  | none, h => cases h

theorem throw_ne_pure {e : Failure} {a : α} (h : (throw e : Run α) = pure a) : False := by cases h

theorem pure_inj {a b : α} (h : (pure a : Run α) = pure b) : a = b := by
  cases h
  rfl

/-! ### Lexemes of the parser -/

/-- Tokens that the lexer has read a word for. -/
def hasWord (token : Token) : Bool := token = .identifier || isScalar token

/-- The lexeme in hand. -/
def lexeme (p : Content L) : Lexeme :=
  ⟨p.currentToken, if hasWord p.currentToken then Lexing.getIdentifier p.lexer else []⟩

@[simp] theorem lexeme_token (p : Content L) : (lexeme p).token = p.currentToken := rfl

theorem lexeme_identifier {p : Content L} (h : hasWord p.currentToken = true) :
    (lexeme p).identifier = Lexing.getIdentifier p.lexer := if_pos h

/-- The lexemes in hand from one state of the parser up to another, by steps of a kind. -/
inductive Feeds (R : Content L → Content L → Prop) : Content L → List Lexeme → Content L → Prop where
  | nil {p : Content L} : Feeds R p [] p
  | cons {p q r : Content L} {ls : List Lexeme} : R p q → Feeds R q ls r → Feeds R p (lexeme p :: ls) r

theorem Feeds.append {R : Content L → Content L → Prop} {p q r : Content L} {ls ls' : List Lexeme}
    (h : Feeds R p ls q) (h' : Feeds R q ls' r) : Feeds R p (ls ++ ls') r := by
  induction h with
  | nil => exact h'
  | cons hstep _ ih => exact .cons hstep (ih h')

theorem Feeds.single {R : Content L → Content L → Prop} {p q : Content L} (h : R p q) : Feeds R p [lexeme p] q :=
  .cons h .nil

/-- With some number of rounds the lexer goes on to the next token. -/
def Moved (p q : Content L) : Prop := ∃ fuel, nextToken fuel p.lexer = some q

theorem of_consume {fuel : ℕ} {expected : Token} {p q : Content L} (h : consume fuel expected p = pure q) :
    p.currentToken = expected ∧ Moved p q := by
  unfold consume at h
  by_cases hne : p.currentToken = expected
  · rw [if_neg (not_not.mpr hne)] at h
    refine ⟨hne, fuel, ?_⟩
    cases hnext : nextToken fuel p.lexer with
    | none =>
      rw [hnext] at h
      cases h
    | some r =>
      rw [hnext] at h
      cases h
      rfl
  · rw [if_pos hne] at h
    split at h <;> exact absurd h throw_ne_pure

/-! ### Open lexemes -/

theorem isOpen_cons {x : Lexeme} {ls : List Lexeme} (hx : x.token ≠ .underscore) (hne : ls ≠ []) :
    isOpen (x :: ls) = isOpen ls := by
  match ls, hne with
  | [y], _ => simp [isOpen, hx]
  | _ :: _ :: _, _ => rfl

theorem isOpen_append {x : Lexeme} {ls ls' : List Lexeme} (hx : x.token ≠ .underscore) (hne : ls' ≠ []) :
    isOpen (ls ++ x :: ls') = isOpen ls' := by
  induction ls with
  | nil => exact isOpen_cons hx hne
  | cons y ls ih =>
    rw [← ih]
    match ls, ls', hne with
    | [], _ :: _, _ => rfl
    | [_], _ :: _, _ => rfl
    | _ :: _ :: _, _ :: _, _ => rfl

theorem isOpen_last {x : Lexeme} {ls : List Lexeme} (hx : x.token ≠ .identifier) : isOpen (ls ++ [x]) = false := by
  match ls with
  | [] => simp [isOpen, hx]
  | [_] => simp [isOpen, hx]
  | y :: z :: ls =>
    have ih := @isOpen_last x (z :: ls) hx
    match ls, ih with
    | [], ih => exact ih
    | _ :: _, ih => exact ih

/-- A token goes on with an access without variables. -/
def Opens (ls : List Lexeme) (token : Token) : Prop := (token = .underscore ∨ token = .lparen) ∧ isOpen ls = true

/-- A token goes on with what the lexemes before it stand for. -/
def GoesOn : Symbol → List Lexeme → Token → Prop
  | .expr, ls, token => Continues ls token
  | .term, ls, token => token = .mul ∨ token = .div ∨ Opens ls token
  | .factor, ls, token | .final, ls, token => Opens ls token

theorem opens_append {x : Lexeme} {ls ls' : List Lexeme} {token : Token} (hx : x.token ≠ .underscore) (hne : ls' ≠ []) :
    Opens (ls ++ x :: ls') token ↔ Opens ls' token := by
  rw [Opens, Opens, isOpen_append hx hne]

theorem Accesses.ne_nil {ls : List Lexeme} {a : Access} (h : Accesses ls a) : ls ≠ [] := by
  cases h <;> simp

theorem Derives.ne_nil {s : Symbol} {ls : List Lexeme} {e : IndexExpr} (h : Derives s ls e) : ls ≠ [] := by
  induction h with
  | term _ ih | factor _ ih | final _ ih => exact ih
  | access ha => exact ha.ne_nil
  | _ => simp

/-! ### Accesses -/

theorem of_parseVar {fuel : ℕ} {p q : Content L} {v : List Char} (h : parseVar fuel p = pure (v, q)) :
    p.currentToken = .identifier ∧ v = (lexeme p).identifier ∧ Moved p q := by
  unfold parseVar at h
  by_cases hp : p.currentToken = .identifier
  · rw [if_neg (not_not.mpr hp)] at h
    obtain ⟨r, hr, h⟩ := pure_of_bind h
    cases pure_inj h
    exact ⟨hp, (lexeme_identifier (by rw [hp]; rfl)).symm, (of_consume hr).2⟩
  · rw [if_pos hp] at h
    exact absurd h throw_ne_pure

theorem of_varListLoop {fuel : ℕ} {p₀ p q : Content L} {ls : List Lexeme} {vars vars' : List (List Char)}
    (hfeeds : Feeds Moved p₀ ls p) (hvars : VarList ls vars) (h : varListLoop fuel vars p = pure (vars', q)) :
    ∃ ls', Feeds Moved p₀ ls' q ∧ VarList ls' vars' := by
  induction fuel generalizing p ls vars with
  | zero => cases h
  | succ fuel ih =>
    rw [varListLoop] at h
    by_cases hp : p.currentToken = .comma
    · rw [if_pos hp] at h
      obtain ⟨r, hr, h⟩ := pure_of_bind h
      obtain ⟨⟨v, t⟩, ht, h⟩ := pure_of_bind h
      obtain ⟨hcomma, hmoved⟩ := of_consume hr
      obtain ⟨hr, rfl, hmoved'⟩ := of_parseVar ht
      exact ih (hfeeds.append (.cons hmoved (.single hmoved'))) (.comma hvars hcomma hr) h
    · rw [if_neg hp] at h
      cases pure_inj h
      exact ⟨ls, hfeeds, hvars⟩

theorem of_parseVarList {fuel : ℕ} {p q : Content L} {vars : List (List Char)}
    (h : parseVarList fuel p = pure (vars, q)) : ∃ ls, Feeds Moved p ls q ∧ VarList ls vars := by
  obtain ⟨⟨v, r⟩, hr, h⟩ := pure_of_bind h
  obtain ⟨hp, rfl, hmoved⟩ := of_parseVar hr
  exact of_varListLoop (.single hmoved) (.var hp) h

theorem of_parseAccess {fuel : ℕ} {p q : Content L} {a : Access} (h : parseAccess fuel p = pure (a, q)) :
    ∃ ls, Feeds Moved p ls q ∧ Accesses ls a ∧ ¬ Opens ls q.currentToken := by
  unfold parseAccess at h
  by_cases hp : p.currentToken = .identifier
  · rw [if_neg (not_not.mpr hp)] at h
    obtain ⟨r, hr, h⟩ := pure_of_bind h
    have hname := lexeme_identifier (p := p) (by rw [hp]; rfl)
    have hmoved := (of_consume hr).2
    rw [← hname] at h
    by_cases hunderscore : r.currentToken = .underscore
    · rw [if_pos hunderscore] at h
      obtain ⟨s, hs, h⟩ := pure_of_bind h
      have hmoved' := (of_consume hs).2
      by_cases hcurly : s.currentToken = .lcurly
      · rw [if_pos hcurly] at h
        obtain ⟨t, ht, h⟩ := pure_of_bind h
        obtain ⟨⟨vars, u⟩, hu, h⟩ := pure_of_bind h
        obtain ⟨w, hw, h⟩ := pure_of_bind h
        cases pure_inj h
        obtain ⟨ls, hfeeds, hvars⟩ := of_parseVarList hu
        obtain ⟨hclose, hmoved''⟩ := of_consume hw
        refine ⟨_, .cons hmoved (.cons hmoved' (.cons (of_consume ht).2 (hfeeds.append (.single hmoved'')))),
          .braces hp hunderscore hcurly hvars hclose, fun hopen => ?_⟩
        have hlast := @isOpen_last (lexeme u) (lexeme p :: lexeme r :: lexeme s :: ls) (by simp [hclose])
        exact absurd hopen.2 (by simpa using hlast)
      · rw [if_neg hcurly] at h
        obtain ⟨⟨v, t⟩, ht, h⟩ := pure_of_bind h
        cases pure_inj h
        obtain ⟨hs, rfl, hmoved''⟩ := of_parseVar ht
        refine ⟨_, .cons hmoved (.cons hmoved' (.single hmoved'')), .var hp hunderscore hs, fun hopen => ?_⟩
        simpa [isOpen, hunderscore] using hopen.2
    · rw [if_neg hunderscore] at h
      by_cases hparen : r.currentToken = .lparen
      · rw [if_pos hparen] at h
        obtain ⟨s, hs, h⟩ := pure_of_bind h
        obtain ⟨⟨vars, t⟩, ht, h⟩ := pure_of_bind h
        obtain ⟨u, hu, h⟩ := pure_of_bind h
        cases pure_inj h
        obtain ⟨ls, hfeeds, hvars⟩ := of_parseVarList ht
        obtain ⟨hclose, hmoved''⟩ := of_consume hu
        refine ⟨_, .cons hmoved (.cons (of_consume hs).2 (hfeeds.append (.single hmoved''))),
          .parens hp hparen hvars hclose, fun hopen => ?_⟩
        have hlast := @isOpen_last (lexeme t) (lexeme p :: lexeme r :: ls) (by simp [hclose])
        exact absurd hopen.2 (by simpa using hlast)
      · rw [if_neg hparen] at h
        cases pure_inj h
        refine ⟨_, .single hmoved, .name hp, fun hopen => ?_⟩
        rcases hopen.1 with hr | hr
        · exact hunderscore hr
        · exact hparen hr
  · rw [if_pos hp] at h
    exact absurd h throw_ne_pure

/-! ### Expressions -/

/-- What a function of the parser returns stands in the grammar, and no token that goes on with it follows. -/
def Reads (s : Symbol) (f : Content L → Run (IndexExpr × Content L)) : Prop :=
  ∀ p e q, f p = pure (e, q) → ∃ ls, Feeds Moved p ls q ∧ Derives s ls e ∧ ¬ GoesOn s ls q.currentToken

/-- A loop of the parser goes on with what was read as one kind, and no token goes on with as another. -/
def ReadsOn (s s' : Symbol) (f : IndexExpr → Content L → Run (IndexExpr × Content L)) : Prop :=
  ∀ p₀ ls a p e q, Feeds Moved p₀ ls p → Derives s ls a → ¬ GoesOn s' ls p.currentToken → f a p = pure (e, q) →
    ∃ ls', Feeds Moved p₀ ls' q ∧ Derives s ls' e ∧ ¬ GoesOn s ls' q.currentToken

theorem reads_final (fuel : ℕ) : Reads (L := L) .final (parseFinal fuel) := by
  intro p e q h
  unfold parseFinal at h
  by_cases hscalar : isScalar p.currentToken = true
  · rw [if_pos hscalar] at h
    obtain ⟨r, hr, h⟩ := pure_of_bind h
    cases pure_inj h
    have hword := lexeme_identifier (p := p) (by simp [hasWord, hscalar])
    rw [← hword]
    refine ⟨_, .single (of_consume hr).2, .scalar (x := lexeme p) hscalar, fun hopen => ?_⟩
    have hne : p.currentToken ≠ .identifier := by
      intro he
      rw [he] at hscalar
      cases hscalar
    simpa [isOpen, hne] using hopen.2
  · rw [if_neg hscalar] at h
    obtain ⟨⟨a, r⟩, hr, h⟩ := pure_of_bind h
    cases pure_inj h
    obtain ⟨ls, hfeeds, ha, hopen⟩ := of_parseAccess hr
    exact ⟨ls, hfeeds, .access ha, hopen⟩

theorem reads_factor {fuel : ℕ} (hexpr : Reads (L := L) .expr (parseExpr fuel))
    (hfactor : Reads (L := L) .factor (parseFactor fuel)) : Reads (L := L) .factor (parseFactor (fuel + 1)) := by
  intro p e q h
  rw [parseFactor] at h
  by_cases hparen : p.currentToken = .lparen
  · rw [if_pos hparen] at h
    obtain ⟨r, hr, h⟩ := pure_of_bind h
    obtain ⟨⟨a, s⟩, hs, h⟩ := pure_of_bind h
    obtain ⟨t, ht, h⟩ := pure_of_bind h
    cases pure_inj h
    obtain ⟨ls, hfeeds, ha, -⟩ := hexpr _ _ _ hs
    obtain ⟨hclose, hmoved⟩ := of_consume ht
    refine ⟨_, .cons (of_consume hr).2 (hfeeds.append (.single hmoved)), .parens hparen ha hclose, fun hopen => ?_⟩
    have hlast := @isOpen_last (lexeme s) (lexeme p :: ls) (by simp [hclose])
    exact absurd hopen.2 (by simpa using hlast)
  · rw [if_neg hparen] at h
    by_cases hsub : p.currentToken = .sub
    · rw [if_pos hsub] at h
      obtain ⟨r, hr, h⟩ := pure_of_bind h
      obtain ⟨⟨a, s⟩, hs, h⟩ := pure_of_bind h
      cases pure_inj h
      obtain ⟨ls, hfeeds, ha, hopen⟩ := hfactor _ _ _ hs
      refine ⟨_, .cons (of_consume hr).2 hfeeds, .neg hsub ha, fun hopen' => hopen ?_⟩
      exact (@opens_append (lexeme p) [] _ _ (by simp [hsub]) ha.ne_nil).mp hopen'
    · rw [if_neg hsub] at h
      obtain ⟨ls, hfeeds, ha, hopen⟩ := reads_final fuel p e q h
      exact ⟨ls, hfeeds, .final ha, hopen⟩

theorem readsOn_term {fuel : ℕ} (hfactor : Reads (L := L) .factor (parseFactor fuel))
    (hloop : ReadsOn (L := L) .term .factor (termLoop fuel)) : ReadsOn (L := L) .term .factor (termLoop (fuel + 1)) := by
  intro p₀ ls a p e q hfeeds ha hopen h
  rw [termLoop] at h
  by_cases hmul : p.currentToken = .mul
  · rw [if_pos hmul] at h
    obtain ⟨r, hr, h⟩ := pure_of_bind h
    obtain ⟨⟨b, s⟩, hs, h⟩ := pure_of_bind h
    obtain ⟨ls', hfeeds', hb, hopen'⟩ := hfactor _ _ _ hs
    have hx : (lexeme p).token ≠ .underscore := by simp [hmul]
    exact hloop _ _ _ _ _ _ (hfeeds.append (.cons (of_consume hr).2 hfeeds')) (.mul ha hmul hb)
      (fun ho => hopen' ((opens_append hx hb.ne_nil).mp ho)) h
  · rw [if_neg hmul] at h
    by_cases hdiv : p.currentToken = .div
    · rw [if_pos hdiv] at h
      obtain ⟨r, hr, h⟩ := pure_of_bind h
      obtain ⟨⟨b, s⟩, hs, h⟩ := pure_of_bind h
      obtain ⟨ls', hfeeds', hb, hopen'⟩ := hfactor _ _ _ hs
      have hx : (lexeme p).token ≠ .underscore := by simp [hdiv]
      exact hloop _ _ _ _ _ _ (hfeeds.append (.cons (of_consume hr).2 hfeeds')) (.div ha hdiv hb)
        (fun ho => hopen' ((opens_append hx hb.ne_nil).mp ho)) h
    · rw [if_neg hdiv] at h
      cases pure_inj h
      refine ⟨ls, hfeeds, ha, ?_⟩
      rintro (he | he | ho)
      · exact hmul he
      · exact hdiv he
      · exact hopen ho

theorem reads_term {fuel : ℕ} (hfactor : Reads (L := L) .factor (parseFactor fuel))
    (hloop : ReadsOn (L := L) .term .factor (termLoop fuel)) : Reads (L := L) .term (parseTerm (fuel + 1)) := by
  intro p e q h
  rw [parseTerm] at h
  obtain ⟨⟨a, r⟩, hr, h⟩ := pure_of_bind h
  obtain ⟨ls, hfeeds, ha, hopen⟩ := hfactor _ _ _ hr
  exact hloop _ _ _ _ _ _ hfeeds (.factor ha) hopen h

theorem readsOn_expr {fuel : ℕ} (hterm : Reads (L := L) .term (parseTerm fuel))
    (hloop : ReadsOn (L := L) .expr .term (exprLoop fuel)) : ReadsOn (L := L) .expr .term (exprLoop (fuel + 1)) := by
  intro p₀ ls a p e q hfeeds ha hopen h
  rw [exprLoop] at h
  by_cases hadd : p.currentToken = .add
  · rw [if_pos hadd] at h
    obtain ⟨r, hr, h⟩ := pure_of_bind h
    obtain ⟨⟨b, s⟩, hs, h⟩ := pure_of_bind h
    obtain ⟨ls', hfeeds', hb, hopen'⟩ := hterm _ _ _ hs
    have hx : (lexeme p).token ≠ .underscore := by simp [hadd]
    exact hloop _ _ _ _ _ _ (hfeeds.append (.cons (of_consume hr).2 hfeeds')) (.add ha hadd hb)
      (fun ho => hopen' (ho.imp_right (Or.imp_right (opens_append hx hb.ne_nil).mp))) h
  · rw [if_neg hadd] at h
    by_cases hsub : p.currentToken = .sub
    · rw [if_pos hsub] at h
      obtain ⟨r, hr, h⟩ := pure_of_bind h
      obtain ⟨⟨b, s⟩, hs, h⟩ := pure_of_bind h
      obtain ⟨ls', hfeeds', hb, hopen'⟩ := hterm _ _ _ hs
      have hx : (lexeme p).token ≠ .underscore := by simp [hsub]
      exact hloop _ _ _ _ _ _ (hfeeds.append (.cons (of_consume hr).2 hfeeds')) (.sub ha hsub hb)
        (fun ho => hopen' (ho.imp_right (Or.imp_right (opens_append hx hb.ne_nil).mp))) h
    · rw [if_neg hsub] at h
      cases pure_inj h
      refine ⟨ls, hfeeds, ha, ?_⟩
      rintro (he | he | ho)
      · exact hadd he
      · exact hsub he
      · exact hopen ho

theorem reads_expr {fuel : ℕ} (hterm : Reads (L := L) .term (parseTerm fuel))
    (hloop : ReadsOn (L := L) .expr .term (exprLoop fuel)) : Reads (L := L) .expr (parseExpr (fuel + 1)) := by
  intro p e q h
  rw [parseExpr] at h
  obtain ⟨⟨a, r⟩, hr, h⟩ := pure_of_bind h
  obtain ⟨ls, hfeeds, ha, hopen⟩ := hterm _ _ _ hr
  exact hloop _ _ _ _ _ _ hfeeds (.term ha) hopen h

/-- The functions that call each other, together by induction on the rounds. -/
theorem reads_all (fuel : ℕ) : Reads (L := L) .expr (parseExpr fuel) ∧ ReadsOn (L := L) .expr .term (exprLoop fuel) ∧
    Reads (L := L) .term (parseTerm fuel) ∧ ReadsOn (L := L) .term .factor (termLoop fuel) ∧
    Reads (L := L) .factor (parseFactor fuel) := by
  induction fuel with
  | zero =>
    refine ⟨fun _ _ _ h => ?_, fun _ _ _ _ _ _ _ _ _ h => ?_, fun _ _ _ h => ?_, fun _ _ _ _ _ _ _ _ _ h => ?_,
      fun _ _ _ h => ?_⟩ <;> cases h
  | succ fuel ih =>
    obtain ⟨hexpr, hexprLoop, hterm, htermLoop, hfactor⟩ := ih
    exact ⟨reads_expr hterm hexprLoop, readsOn_expr hterm hexprLoop, reads_term hfactor htermLoop,
      readsOn_term hfactor htermLoop, reads_factor hexpr hfactor⟩

/-- What is parsed as an assignment is one, and no token that goes on with it follows. -/
theorem of_parseAssign {fuel : ℕ} {p q : Content L} {a : Assignment} (h : parseAssign fuel p = pure (a, q)) :
    ∃ ls, Feeds Moved p ls q ∧ Assigns ls a ∧ ¬ Continues ls q.currentToken := by
  unfold parseAssign at h
  obtain ⟨⟨lhs, r⟩, hr, h⟩ := pure_of_bind h
  obtain ⟨ls, hfeeds, hlhs, -⟩ := of_parseAccess hr
  have happend : ∀ {x : Lexeme} {ls ls' : List Lexeme} {token : Token}, x.token = .eq → ls' ≠ [] →
      Continues (ls ++ x :: ls') token → Continues ls' token := by
    intro x ls ls' token hx hne hc
    exact hc.imp_right (Or.imp_right (Or.imp_right (Or.imp_right (opens_append (by simp [hx]) hne).mp)))
  by_cases hadd : r.currentToken = .add
  · dsimp only at h
    rw [if_pos hadd] at h
    obtain ⟨s, hs, h⟩ := pure_of_bind h
    obtain ⟨t, ht, h⟩ := pure_of_bind h
    obtain ⟨⟨rhs, u⟩, hu, h⟩ := pure_of_bind h
    cases pure_inj h
    obtain ⟨heq, hmoved⟩ := of_consume ht
    obtain ⟨ls', hfeeds', hrhs, hopen⟩ := (reads_all fuel).1 _ _ _ hu
    refine ⟨_, hfeeds.append (.cons (of_consume hs).2 (.cons hmoved hfeeds')), .accumulate hlhs hadd heq hrhs,
      fun hc => hopen (@happend (lexeme s) (ls ++ [lexeme r]) _ _ heq hrhs.ne_nil (by simpa using hc))⟩
  · dsimp only at h
    rw [if_neg hadd] at h
    obtain ⟨s, hs, h⟩ := pure_of_bind h
    obtain ⟨⟨rhs, t⟩, ht, h⟩ := pure_of_bind h
    cases pure_inj h
    obtain ⟨heq, hmoved⟩ := of_consume hs
    obtain ⟨ls', hfeeds', hrhs, hopen⟩ := (reads_all fuel).1 _ _ _ ht
    exact ⟨_, hfeeds.append (.cons hmoved hfeeds'), .assign hlhs heq hrhs,
      fun hc => hopen (happend heq hrhs.ne_nil hc)⟩

end Parser
end Taco
