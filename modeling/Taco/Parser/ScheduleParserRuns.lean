import Taco.Parser.PrinterRead
import Taco.Parser.ScheduleParser

/-! How the schedule parser runs over the lexemes of a text, and the texts that it rejects. -/

namespace Taco
namespace Parser

variable {text : List Char}

/-! ### Lexemes -/

/-- The parser on a lexeme. -/
def stepOn (argValue : List Char) (st : Schedule) (x : Lexeme) : Except Failure Schedule :=
  scheduleStep argValue st x.token x.identifier

theorem scheduleStep_wordAfter {argValue w : List Char} {st : Schedule} {x : Lexeme} (hx : IsLexeme x) :
    scheduleStep argValue st x.token (wordAfter w x) = stepOn argValue st x := by
  obtain ⟨token, word⟩ := x
  unfold wordAfter
  by_cases hword : word = []
  · have htoken := hx.mp hword
    cases token <;> first | rfl | cases htoken
  · rw [if_neg hword]
    rfl

theorem shown_iff {s : List Char} : shown text s = some s ↔ (s = [] → 0 ≤ size text) := by
  constructor
  · rintro h rfl
    by_contra hneg
    rw [shown_nil (Int.not_le.mp hneg)] at h
    cases h
  · intro h
    cases s with
    | nil => exact shown_of_nonneg (h rfl)
    | cons c s => exact shown_cons

theorem ended_iff {s : List Char} : Ended text s ↔ ∃ x rest, scan text s = some (x, rest) ∧ x.token = .eot := by
  constructor
  · rintro (⟨hs, hsize⟩ | ⟨blanks, more, hblanks, rfl, hmore⟩)
    · refine ⟨⟨.eot, []⟩, [], ?_, rfl⟩
      rw [← List.append_nil s, scan_blanks hs, scan_nil, shown_of_nonneg hsize]
      rfl
    · refine ⟨⟨.eot, []⟩, more, ?_, rfl⟩
      rw [scan_blanks hblanks, scan_cons (by decide), if_neg (by decide), if_neg (by decide), shown_iff.mpr hmore]
      rfl
  · rintro ⟨x, rest, hscan, hx⟩
    obtain ⟨-, hend, ⟨hs, hrest⟩ | ⟨blanks, hblanks, hs⟩⟩ := eot_of_scan hscan hx
    · exact .inl ⟨hs, hend hrest⟩
    · exact .inr ⟨blanks, rest, hblanks, hs, hend⟩

/-! ### The loop -/

/-- With enough rounds the outcome is this. -/
def EndsWith {α : Type} (f : ℕ → Run α) (o : Except Failure α) : Prop := ∃ bound, ∀ n ≥ bound, f n = ExceptT.mk (some o)

theorem EndsWith.of_succ {α : Type} {f : ℕ → Run α} {o : Except Failure α} (h : EndsWith (fun n => f (n + 1)) o) :
    EndsWith f o := by
  obtain ⟨bound, hbound⟩ := h
  refine ⟨bound + 1, fun n hn => ?_⟩
  obtain ⟨m, rfl⟩ := Nat.exists_eq_add_of_le' (Nat.le_trans (Nat.le_add_left 1 bound) hn)
  exact hbound m (Nat.le_of_add_le_add_right hn)

theorem mk_bind_ok {α β : Type} {a : α} {f : α → Run β} : (ExceptT.mk (some (.ok a)) : Run α) >>= f = f a := rfl

theorem mk_bind_error {α β : Type} {e : Failure} {f : α → Run β} :
    (ExceptT.mk (some (.error e)) : Run α) >>= f = ExceptT.mk (some (.error e)) := rfl

/-- One round of the loop. -/
theorem scheduleLoop_succ {argValue : List Char} {n : ℕ} {st : Schedule} {lexer lexer' : Lexer} {tok : Token}
    (h : lexer.getToken n = some (tok, lexer')) : scheduleLoop argValue (n + 1) st lexer =
      if tok = .eot then pure st
      else ExceptT.mk (some (scheduleStep argValue st tok lexer'.identifier)) >>= fun st =>
        scheduleLoop argValue n st lexer' := by
  rw [scheduleLoop, h]
  rfl

theorem scheduleLoop_none {argValue : List Char} {n : ℕ} {st : Schedule} {lexer : Lexer}
    (h : lexer.getToken n = none) : scheduleLoop argValue (n + 1) st lexer = ExceptT.mk none := by
  rw [scheduleLoop, h]
  rfl

/-- A round of the loop reads a lexeme. -/
theorem scheduleLoop_lexeme {argValue s rest w : List Char} {st : Schedule} {x : Lexeme} {o : Except Failure Schedule}
    (hs : Remains text s) (hscan : scan text s = some (x, rest)) (hx : x.token ≠ .eot)
    (h : EndsWith (fun n => ExceptT.mk (some (stepOn argValue st x)) >>= fun st =>
      scheduleLoop argValue n st (lexerAt text rest (wordAfter w x))) o) :
    EndsWith (fun n => scheduleLoop argValue n st (lexerAt text s w)) o := by
  apply EndsWith.of_succ
  obtain ⟨bound, hbound⟩ := (settles_getToken (w := w) hs).2 _ (by rw [hscan]; rfl)
  obtain ⟨bound', hbound'⟩ := h
  refine ⟨max bound bound', fun n hn => ?_⟩
  have hstep := hbound' n (le_trans (le_max_right _ _) hn)
  dsimp only at hstep ⊢
  rw [scheduleLoop_succ (hbound n (le_trans (le_max_left _ _) hn)), if_neg hx]
  show ExceptT.mk (some (scheduleStep argValue st x.token (wordAfter w x))) >>= _ = _
  rw [scheduleStep_wordAfter (isLexeme_of_scan hscan)]
  exact hstep

/-- The loop ends where the lexemes end. -/
theorem scheduleLoop_end {argValue s w : List Char} {st : Schedule} (hs : Remains text s) (h : Ended text s) :
    EndsWith (fun n => scheduleLoop argValue n st (lexerAt text s w)) (.ok st) := by
  obtain ⟨x, rest, hscan, hx⟩ := ended_iff.mp h
  apply EndsWith.of_succ
  obtain ⟨bound, hbound⟩ := (settles_getToken (w := w) hs).2 _ (by rw [hscan]; rfl)
  refine ⟨bound, fun n hn => ?_⟩
  dsimp only
  rw [scheduleLoop_succ (hbound n hn), if_pos hx]
  rfl

/-- Over lexemes the loop makes a step for each of them. -/
theorem scheduleLoop_lexemes {argValue s s' w : List Char} {st : Schedule} {ls : List Lexeme} {o : Except Failure Schedule}
    (h : Lexemes s ls s') (hs : Remains text s) (hs' : shown text s' = some s')
    (hfold : ls.foldlM (stepOn argValue) st = o) (hends : ∀ st, o = .ok st → Ended text s') :
    EndsWith (fun n => scheduleLoop argValue n st (lexerAt text s w)) o := by
  induction h generalizing st w with
  | nil =>
    cases hfold
    exact scheduleLoop_end hs (hends _ rfl)
  | @cons s rest s' x ls hx hls ih =>
    have hrest := hls.shown hs'
    refine scheduleLoop_lexeme hs (hx.scan hrest) hx.token_ne ?_
    rw [List.foldlM_cons] at hfold
    cases hstep : stepOn argValue st x with
    | error e =>
      rw [hstep] at hfold
      cases hfold
      exact ⟨0, fun _ _ => rfl⟩
    | ok st' =>
      rw [hstep] at hfold
      exact ih (hs.of_suffix hx.suffix hrest) hs' hfold hends

/-- What the loop ends with is made by steps over lexemes. -/
theorem of_scheduleLoop {argValue s w : List Char} {n : ℕ} {st : Schedule} {o : Except Failure Schedule}
    (hs : Remains text s) (h : scheduleLoop argValue n st (lexerAt text s w) = ExceptT.mk (some o)) :
    ∃ ls s', Lexemes s ls s' ∧ shown text s' = some s' ∧ ls.foldlM (stepOn argValue) st = o ∧
      ∀ st, o = .ok st → Ended text s' := by
  induction n generalizing st s w with
  | zero => cases h
  | succ n ih =>
    cases hget : (lexerAt text s w).getToken n with
    | none =>
      rw [scheduleLoop_none hget] at h
      cases h
    | some r =>
      obtain ⟨⟨x, rest⟩, hscan, rfl⟩ := Option.map_eq_some_iff.mp ((settles_getToken hs).1 n r hget)
      rw [scheduleLoop_succ hget] at h
      by_cases hx : x.token = .eot
      · rw [if_pos hx] at h
        cases h
        exact ⟨[], s, .nil, hs.2, rfl, fun _ _ => ended_iff.mpr ⟨x, rest, hscan, hx⟩⟩
      · rw [if_neg hx] at h
        replace h : ExceptT.mk (some (scheduleStep argValue st x.token (wordAfter w x))) >>= _ = _ := h
        rw [scheduleStep_wordAfter (isLexeme_of_scan hscan)] at h
        have hlexes := lexes_of_scan hscan hx
        have hrest := shown_of_scan hscan
        cases hstep : stepOn argValue st x with
        | error e =>
          rw [hstep, mk_bind_error] at h
          cases h
          refine ⟨[x], rest, .cons hlexes .nil, hrest, ?_, by simp⟩
          rw [List.foldlM_cons, hstep]
          rfl
        | ok st' =>
          rw [hstep, mk_bind_ok] at h
          obtain ⟨ls, s', hls, hs', hfold, hends⟩ := ih (hs.of_suffix hlexes.suffix hrest) h
          refine ⟨x :: ls, s', .cons hlexes hls, hs', ?_, hends⟩
          rw [List.foldlM_cons, hstep]
          exact hfold

/-! ### The loop on a text -/

theorem ended_blank {s : List Char} {c : Char} (hc : isspace c = true) : Ended text (c :: s) ↔ Ended text s := by
  rw [ended_iff, ended_iff, scan_blank hc]

theorem lexed_shown {ls : List Lexeme} {rest : List Char} (h : Lexed text ls rest) : shown text rest = some rest :=
  shown_iff.mpr h.2

theorem Lexemes.eq_of_nil {s rest : List Char} (h : Lexemes s [] rest) : rest = s := by
  cases h
  rfl

/-- The loop of the parser, on the lexemes of its text. -/
theorem ends_of_lexed {ls : List Lexeme} {rest : List Char} {o : Except Failure Schedule} (h : Lexed text ls rest)
    (hfold : ls.foldlM (stepOn text) .init = o) (hends : ∀ st, o = .ok st → Ended text rest) :
    EndsWith (fun n => scheduleLoop text n .init (Lexer.make text)) o := by
  rw [make_eq]
  obtain ⟨hls, hrest⟩ := h
  cases ls with
  | nil =>
    cases hfold
    have hended := hends _ rfl
    rw [hls.eq_of_nil] at hended
    exact scheduleLoop_end (remains_make text) ((ended_blank (by decide)).mpr hended)
  | cons x ls =>
    exact scheduleLoop_lexemes (hls.blank (by simp)) (remains_make text) (shown_iff.mpr hrest) hfold hends

theorem lexed_of_ends {n : ℕ} {o : Except Failure Schedule}
    (h : scheduleLoop text n .init (Lexer.make text) = ExceptT.mk (some o)) :
    ∃ ls rest, Lexed text ls rest ∧ ls.foldlM (stepOn text) .init = o ∧ ∀ st, o = .ok st → Ended text rest := by
  rw [make_eq] at h
  obtain ⟨ls, s', hls, hs', hfold, hends⟩ := of_scheduleLoop (remains_make text) h
  cases hls with
  | nil =>
    cases hfold
    have hended := (ended_blank (by decide)).mp (hends _ rfl)
    obtain ⟨x, rest, hscan, -⟩ := ended_iff.mp hended
    exact ⟨[], seen text, ⟨.nil, shown_iff.mp (shown_of_scan_some hscan)⟩, rfl, fun _ _ => hended⟩
  | cons hx hls =>
    have hscan := hx.scan (hls.shown hs')
    rw [scan_blank (by decide)] at hscan
    exact ⟨_, s', ⟨.cons (lexes_of_scan hscan hx.token_ne) hls, shown_iff.mp hs'⟩, hfold, hends⟩

theorem scheduleParser_ok {result : List (List (List Char))} : (∃ fuel, scheduleParser fuel text = pure result) ↔
    ∃ ls rest st, Lexed text ls rest ∧ Ended text rest ∧ ls.foldlM (stepOn text) .init = .ok st ∧
      scheduleEnd text st = .ok result := by
  constructor
  · rintro ⟨fuel, h⟩
    obtain ⟨st, hst, hend⟩ := pure_of_bind h
    obtain ⟨ls, rest, hls, hfold, hended⟩ := lexed_of_ends hst
    exact ⟨ls, rest, st, hls, hended st rfl, hfold, Option.some.inj hend⟩
  · rintro ⟨ls, rest, st, hls, hended, hfold, hend⟩
    obtain ⟨n, hn⟩ := ends_of_lexed hls hfold fun _ _ => hended
    refine ⟨n, ?_⟩
    unfold scheduleParser
    rw [show scheduleLoop text n .init (Lexer.make text) = _ from hn n le_rfl, mk_bind_ok, hend]
    rfl

theorem scheduleParser_error : (∃ fuel e, scheduleParser fuel text = throw e) ↔
    ∃ ls rest, Lexed text ls rest ∧ ((∃ e, ls.foldlM (stepOn text) .init = .error e) ∨
      ∃ st e, Ended text rest ∧ ls.foldlM (stepOn text) .init = .ok st ∧ scheduleEnd text st = .error e) := by
  constructor
  · rintro ⟨fuel, e, h⟩
    unfold scheduleParser at h
    match hloop : scheduleLoop text fuel .init (Lexer.make text), h with
    | none, h => cases h
    | some (.error e'), h =>
      obtain ⟨ls, rest, hls, hfold, -⟩ := lexed_of_ends hloop
      exact ⟨ls, rest, hls, .inl ⟨e', hfold⟩⟩
    | some (.ok st), h =>
      obtain ⟨ls, rest, hls, hfold, hended⟩ := lexed_of_ends hloop
      exact ⟨ls, rest, hls, .inr ⟨st, e, hended st rfl, hfold, Option.some.inj h⟩⟩
  · rintro ⟨ls, rest, hls, ⟨e, hfold⟩ | ⟨st, e, hended, hfold, hend⟩⟩
    · obtain ⟨n, hn⟩ := ends_of_lexed hls hfold (by simp)
      refine ⟨n, e, ?_⟩
      unfold scheduleParser
      rw [show scheduleLoop text n .init (Lexer.make text) = _ from hn n le_rfl, mk_bind_error]
      rfl
    · obtain ⟨n, hn⟩ := ends_of_lexed hls hfold fun _ _ => hended
      refine ⟨n, e, ?_⟩
      unfold scheduleParser
      rw [show scheduleLoop text n .init (Lexer.make text) = _ from hn n le_rfl, mk_bind_ok, hend]
      rfl

/-! ### Steps that fail -/

theorem foldlM_concat_ok {α β : Type} {f : β → α → Except Failure β} {l : List α} {x : α} {b b' : β} :
    (l ++ [x]).foldlM f b = .ok b' ↔ ∃ c, l.foldlM f b = .ok c ∧ f c x = .ok b' := by
  rw [List.foldlM_append]
  cases l.foldlM f b with
  | error e => exact iff_of_false (by rintro ⟨⟩) (by simp)
  | ok c =>
    show (f c x >>= pure) = _ ↔ _
    simp

/-- If a fold fails, then at some element it does for the first time. -/
theorem foldlM_error {α β : Type} {f : β → α → Except Failure β} {l : List α} {b : β} {e : Failure}
    (h : l.foldlM f b = .error e) : ∃ before x c, before ++ [x] <+: l ∧ before.foldlM f b = .ok c ∧ f c x = .error e := by
  induction l generalizing b with
  | nil => cases h
  | cons x l ih =>
    rw [List.foldlM_cons] at h
    cases hx : f b x with
    | error e' =>
      rw [hx] at h
      cases h
      exact ⟨[], x, b, List.prefix_append [x] l, rfl, hx⟩
    | ok b' =>
      rw [hx] at h
      obtain ⟨before, y, c, hbegin, hbefore, hy⟩ := ih h
      refine ⟨x :: before, y, c, List.cons_prefix_cons.mpr ⟨rfl, hbegin⟩, ?_, hy⟩
      rw [List.foldlM_cons, hx]
      exact hbefore

/-! ### The counters -/

/-- The counters are what was opened and not closed, and are not negative. -/
structure Counts (ls : List Lexeme) (st : Schedule) : Prop where
  parentheses : st.parenthesesCnt = excessOf .lparen .rparen ls
  curly : st.curlyParenthesesCnt = excessOf .lcurly .rcurly ls
  parentheses_nonneg : 0 ≤ st.parenthesesCnt
  curly_nonneg : 0 ≤ st.curlyParenthesesCnt

theorem excessOf_append {l r : Token} {ls : List Lexeme} {x : Lexeme} : excessOf l r (ls ++ [x]) =
    excessOf l r ls + (if x.token = l then 1 else 0) - (if x.token = r then 1 else 0) := by
  unfold excessOf
  simp only [List.map_append, List.map_cons, List.map_nil, List.count_append, List.count_singleton, beq_iff_eq]
  split_ifs <;> push_cast <;> omega

/-- What a step does to the counters. -/
theorem Counts.step {ls : List Lexeme} {st st' : Schedule} {x : Lexeme} (h : Counts ls st)
    (hstep : stepOn text st x = .ok st') : Counts (ls ++ [x]) st' := by
  obtain ⟨hp, hc, hpn, hcn⟩ := h
  obtain ⟨token, word⟩ := x
  unfold stepOn scheduleStep at hstep
  cases token
  case lparen | rparen | comma | rcurly =>
    dsimp only at hstep
    split_ifs at hstep <;> cases hstep <;> constructor <;>
      simp only [Schedule.append, Schedule.pushElement, Schedule.pushSchedule, excessOf_append, reduceCtorEq, if_true,
        if_false] <;> omega
  all_goals
    cases hstep
    constructor <;> simp only [Schedule.append, excessOf_append, reduceCtorEq, if_true, if_false] <;> omega

theorem error_iff {ls : List Lexeme} {st : Schedule} {x : Lexeme} (h : Counts ls st) :
    (∃ e, stepOn text st x = .error e) ↔
      excessOf .lparen .rparen (ls ++ [x]) < 0 ∨ excessOf .lcurly .rcurly (ls ++ [x]) < 0 := by
  obtain ⟨hp, hc, hpn, hcn⟩ := h
  obtain ⟨token, word⟩ := x
  simp only [excessOf_append, ← hp, ← hc]
  unfold stepOn scheduleStep
  cases token
  case rparen | comma | rcurly =>
    simp only [reduceCtorEq, if_true, if_false]
    split_ifs <;> simp only [exists_false, Except.error.injEq, exists_eq', false_iff, true_iff] <;> omega
  all_goals
    simp only [reduceCtorEq, exists_false, false_iff, if_true, if_false]
    omega

theorem counts_init : Counts [] .init := ⟨rfl, rfl, le_rfl, le_rfl⟩

/-- While no more is closed than was opened, the counters are right. -/
theorem counts_fold {ls : List Lexeme} {st : Schedule} (h : ls.foldlM (stepOn text) .init = .ok st) : Counts ls st := by
  induction ls using List.reverseRecOn generalizing st with
  | nil =>
    cases h
    exact counts_init
  | append_singleton ls x ih =>
    obtain ⟨st', hls, hx⟩ := foldlM_concat_ok.mp h
    exact (ih hls).step hx

theorem Lexemes.of_begin {s rest : List Char} {ls ls' : List Lexeme} (h : Lexemes s ls rest) (hbegin : ls' <+: ls) :
    ∃ s' more, Lexemes s ls' s' ∧ Lexemes s' more rest := by
  obtain ⟨more, rfl⟩ := hbegin
  induction ls' generalizing s with
  | nil => exact ⟨s, more, .nil, h⟩
  | cons x ls' ih =>
    cases h with
    | cons hx h =>
      obtain ⟨s', more', hls', hmore⟩ := ih h
      exact ⟨s', more', .cons hx hls', hmore⟩

theorem Lexed.of_begin {ls ls' : List Lexeme} {rest : List Char} (h : Lexed text ls rest) (hbegin : ls' <+: ls) :
    ∃ rest', Lexed text ls' rest' := by
  obtain ⟨s', more, hls', hmore⟩ := h.1.of_begin hbegin
  exact ⟨s', hls', shown_iff.mp (hmore.shown (shown_iff.mpr h.2))⟩

/-- What is mismatched among its tokens is what the parser rejects. -/
theorem rejected_iff : (∃ fuel e, scheduleParser fuel text = throw e) ↔ Mismatched text := by
  rw [scheduleParser_error]
  constructor
  · rintro ⟨ls, rest, hls, ⟨e, hfold⟩ | ⟨st, e, hended, hfold, hend⟩⟩
    · obtain ⟨before, x, st, hbegin, hbefore, hx⟩ := foldlM_error hfold
      obtain ⟨rest', hls'⟩ := hls.of_begin hbegin
      exact ⟨_, rest', hls', ((error_iff (counts_fold hbefore)).mp ⟨e, hx⟩).imp_right .inl⟩
    · obtain ⟨hp, -, hpn, -⟩ := counts_fold hfold
      refine ⟨ls, rest, hls, .inr (.inr ⟨hended, ?_⟩)⟩
      unfold scheduleEnd at hend
      by_cases h0 : st.parenthesesCnt = 0
      · rw [if_pos h0] at hend
        cases hend
      · omega
  · rintro ⟨ls, rest, hls, hexcess⟩
    refine ⟨ls, rest, hls, ?_⟩
    cases hfold : ls.foldlM (stepOn text) .init with
    | error e => exact .inl ⟨e, rfl⟩
    | ok st =>
      obtain ⟨hp, hc, hpn, hcn⟩ := counts_fold hfold
      rcases hexcess with hneg | hneg | ⟨hended, hpos⟩
      · omega
      · omega
      · refine .inr ⟨st, ?_⟩
        unfold scheduleEnd
        rw [if_neg (by omega)]
        exact ⟨_, hended, rfl, rfl⟩

end Parser
end Taco
