import Marmoset.Proofs.ParserSteps

/-!
# A parse error depends on nothing behind it

Two cursors are alike if they have the same tokens ahead up to some point and were moved past the
same one.  A reader is local if it only moves forward and, as long as it stops before that point,
does the same from both cursors.  Looking at a token and passing it are local, and so is any
sequence of local readers; hence the whole parser is.
-/

namespace Marmoset

/-- The same tokens ahead, up to where `more` and `more'` begin. -/
inductive Cursor.Alike (more more' : List Lexeme) : Cursor → Cursor → Prop
  | mk (ls : List Lexeme) (last : Pos) : Alike more more' ⟨ls ++ more, last⟩ ⟨ls ++ more', last⟩

namespace Cursor.Alike

variable {more more' : List Lexeme} {c d : Cursor}

/-- Before that point the next token and its place are the same, and so is what comes after it. -/
lemma cons (h : Alike more more' c d) (hc : more.length < c.left) :
    d.peek = c.peek ∧ d.place = c.place ∧ Alike more more' c.next d.next := by
  obtain ⟨ls, last⟩ := h
  cases ls with
  | nil => exact absurd hc (Nat.lt_irrefl _)
  | cons l ls => exact ⟨rfl, rfl, ⟨ls, l.pos⟩⟩

end Cursor.Alike

/-- Passing a token takes it off what is ahead, or there was none. -/
lemma Cursor.next_suffix (c : Cursor) : c.next.ahead <:+ c.ahead := by
  obtain ⟨ahead, last⟩ := c
  cases ahead with
  | nil => exact List.suffix_rfl
  | cons l ls => exact List.suffix_cons l ls

namespace Reader

variable {α β : Type}

/-- The cursor at which a reader stopped. -/
def stop : EStateM.Result ParseFault Cursor α → Cursor
  | .ok _ c => c
  | .error _ c => c

/-- The same value or fault, at cursors that are alike. -/
inductive Same (more more' : List Lexeme) :
    EStateM.Result ParseFault Cursor α → EStateM.Result ParseFault Cursor α → Prop
  | ok {c d : Cursor} (a : α) : Cursor.Alike more more' c d → Same more more' (.ok a c) (.ok a d)
  | error {c d : Cursor} (e : ParseFault) : Cursor.Alike more more' c d →
      Same more more' (.error e c) (.error e d)

/-- From `c` the reader moves forward, and what it does depends on nothing behind the token at which
it stops. -/
structure LocalAt (c : Cursor) (r : Reader α) : Prop where
  onward : (stop (r c)).ahead <:+ c.ahead
  same : ∀ {more more' d}, Cursor.Alike more more' c d → more.length < (stop (r c)).left →
    Same more more' (r c) (r d)

namespace LocalAt

variable {c : Cursor}

protected lemma pure (a : α) : LocalAt c (pure a) :=
  ⟨List.suffix_rfl, fun h _ => .ok a h⟩

protected lemma throw (e : ParseFault) : LocalAt c (throw e : Reader α) :=
  ⟨List.suffix_rfl, fun h _ => .error e h⟩

protected lemma skip : LocalAt c skip :=
  ⟨c.next_suffix, fun h hc => .ok () (h.cons (Nat.lt_of_lt_of_le hc c.next_suffix.length_le)).2.2⟩

protected lemma bind {r : Reader α} {k : α → Reader β} (hr : LocalAt c r)
    (hk : ∀ a c', r c = .ok a c' → LocalAt c' (k a)) : LocalAt c (r >>= k) := by
  have onward : (stop ((r >>= k) c)).ahead <:+ (stop (r c)).ahead := by
    show (stop (EStateM.bind r k c)).ahead <:+ _
    rw [EStateM.bind]
    cases h : r c with
    | ok a c' => exact (hk a c' h).onward
    | error e c' => exact List.suffix_rfl
  refine ⟨onward.trans hr.onward, fun {more more' d} hcd hs => ?_⟩
  -- what comes second does not move back, so the first reader has stopped before the point as well
  have first := hr.same hcd (Nat.lt_of_lt_of_le hs onward.length_le)
  change more.length < (stop (EStateM.bind r k c)).left at hs
  show Same more more' (EStateM.bind r k c) (EStateM.bind r k d)
  rw [EStateM.bind] at hs ⊢
  rw [EStateM.bind]
  generalize hc : r c = x at hs first ⊢
  generalize r d = y at first ⊢
  cases first with
  | ok a hcd' => exact (hk a _ hc).same hcd' hs
  | error e hcd' => exact .error e hcd'

/-- To look at the next token is local. -/
lemma look {k : Token → Reader α} (hk : LocalAt c (k c.peek)) : LocalAt c (peek >>= k) := by
  refine LocalAt.bind ⟨List.suffix_rfl, fun {more more' d} h hc => ?_⟩ fun a c' h => ?_
  · show Same more more' (.ok c.peek c) (.ok d.peek d)
    rw [(h.cons hc).1]
    exact .ok _ h
  · cases h
    exact hk

/-- To pass the next token is local, and so is what is done after it. -/
lemma pass {r : Reader α} (hr : LocalAt c.next r) : LocalAt c (skip >>= fun _ => r) := by
  refine LocalAt.skip.bind fun a c' h => ?_
  cases h
  exact hr

/-- What does the same from every cursor is local as well. -/
lemma congr {r r' : Reader α} (h : ∀ e, r e = r' e) (hr : LocalAt c r') : LocalAt c r := by
  rw [funext h]
  exact hr

end LocalAt

/-- A result of the parser leaves fewer tokens than the bound. -/
lemma left_lt_of_outcome {n : Nat} {x : Parse α n} {a : α} {c' : Cursor}
    (h : outcome x = .ok a c') : c'.left < n := by
  cases x with
  | error f => cases h
  | ok p =>
      cases h
      exact p.within

/-- A failure is told apart by its fault and its cursor. -/
lemma outcome_eq_error {n : Nat} {x : Parse α n} {f : ParseFailure} :
    outcome x = .error f.fault f.cursor ↔ x = .error f := by
  obtain ⟨fault, cursor⟩ := f
  cases x with
  | ok p => simp [outcome]
  | error g =>
      obtain ⟨fault', cursor'⟩ := g
      simp [outcome]

/-! ## The parser is local -/

/-- Whether a sign is the expected one is seen from it alone. -/
lemma expect_local (s : Sign) (c : Cursor) : LocalAt c (expect s) := by
  rw [expect_eq]
  refine .look ?_
  split
  · exact .skip
  · exact .throw _

lemma name_local (place : NamePlace) (c : Cursor) : LocalAt c (name place) := by
  rw [name_eq]
  refine .look ?_
  cases c.peek with
  | ident n => exact .pass (.pure n)
  | _ => exact .throw _

/-- Each name needs the token behind it, which is a comma or the closing parenthesis. -/
lemma names_local (acc : List String) (c : Cursor) : LocalAt c (names acc) := by
  refine .congr (fun e => names_eq acc _ e _) ?_
  refine (name_local _ c).bind fun n c₁ h₁ => .look ?_
  have := left_lt_of_outcome h₁
  have := c₁.left_next_le
  split
  · exact .pass (names_local (n :: acc) c₁.next)
  · exact (expect_local _ c₁).bind fun _ _ _ => .pure _
termination_by c.left
decreasing_by omega

lemma parameters_local (c : Cursor) : LocalAt c parameters := by
  rw [parameters_eq]
  refine .look ?_
  split
  · exact .pass (.pure _)
  · exact names_local [] c

lemma ended_local (s : Stmt) (c : Cursor) : LocalAt c (ended s) := by
  rw [ended_eq]
  refine .look ?_
  split
  · exact .pass (.pure s)
  · exact .pure s

mutual

/-- An expression is an operand and what is joined to it. -/
lemma expression_local (power : Nat) (c : Cursor) : LocalAt c (expression power) := by
  rw [expression_eq]
  refine (operand_local c).bind fun left c₁ h₁ => ?_
  have := left_lt_of_outcome h₁
  exact climb_local power left c₁
termination_by 4 * c.left + 1
decreasing_by all_goals omega

/-- The climb looks at one sign at a time, and does not pass the one at which it stops. -/
lemma climb_local (power : Nat) (left : Expr) (c : Cursor) : LocalAt c (climb power left) := by
  refine .congr (fun e => climb_eq power left _ e _) (.look ?_)
  cases ht : c.peek with
  | sign s =>
      have := Cursor.left_next_lt (c := c) (by simp [ht])
      rw [climbAt]
      split
      · exact .pure left
      refine .pass ?_
      cases s with
      | openParen =>
          refine (list_local .closeParen c.next).bind fun args c₁ h₁ => ?_
          have := left_lt_of_outcome h₁
          exact climb_local power _ c₁
      | openBracket =>
          refine (expression_local 0 c.next).bind fun index c₁ h₁ =>
            (expect_local _ c₁).bind fun _ c₂ h₂ => ?_
          have := left_lt_of_outcome h₁
          have := left_lt_of_outcome h₂
          exact climb_local power _ c₂
      | _ =>
          refine (expression_local _ c.next).bind fun right c₁ h₁ => ?_
          have := left_lt_of_outcome h₁
          exact climb_local power _ c₁
  | _ => exact .pure left
termination_by 4 * c.left
decreasing_by all_goals omega

/-- The first token of an operand says which kind it is. -/
lemma operand_local (c : Cursor) : LocalAt c operand := by
  rw [operand_eq]
  refine .look ?_
  cases ht : c.peek with
  | sign s =>
      have := Cursor.left_next_lt (c := c) (by simp [ht])
      cases s with
      | openParen =>
          exact .pass ((expression_local 0 c.next).bind fun _ c₁ _ =>
            (expect_local _ c₁).bind fun _ _ _ => .pure _)
      | openBracket => exact .pass ((list_local _ c.next).bind fun _ _ _ => .pure _)
      | openBrace => exact .pass ((pairs_local [] c.next).bind fun _ _ _ => .pure _)
      | bang => exact .pass ((expression_local _ c.next).bind fun _ _ _ => .pure _)
      | minus => exact .pass ((expression_local _ c.next).bind fun _ _ _ => .pure _)
      | _ => exact .throw _
  | keyword k =>
      have := Cursor.left_next_lt (c := c) (by simp [ht])
      cases k with
      | ifWord => exact .pass (conditional_local c.next)
      | fnWord => exact .pass (function_local c.next)
      | trueWord => exact .pass (.pure _)
      | falseWord => exact .pass (.pure _)
      | nilWord => exact .pass (.pure _)
      | _ => exact .throw _
  | ident n => exact .pass (.pure _)
  | integer n => exact .pass (.pure _)
  | float x => exact .pass (.pure _)
  | string s => exact .pass (.pure _)
  | _ => exact .throw _
termination_by 4 * c.left
decreasing_by all_goals omega

/-- Whether there is a second branch is seen from the token behind the first one. -/
lemma conditional_local (c : Cursor) : LocalAt c conditional := by
  rw [conditional_eq]
  refine (expect_local _ c).bind fun _ c₁ h₁ => ?_
  have := left_lt_of_outcome h₁
  refine (expression_local 0 c₁).bind fun condition c₂ h₂ =>
    (expect_local _ c₂).bind fun _ c₃ h₃ => ?_
  have := left_lt_of_outcome h₂
  have := left_lt_of_outcome h₃
  refine (block_local c₃).bind fun yes c₄ h₄ => .look ?_
  have := left_lt_of_outcome h₄
  have := c₄.left_next_le
  split
  · exact .pass ((block_local c₄.next).bind fun _ _ _ => .pure _)
  · exact .pure _
termination_by 4 * c.left + 3
decreasing_by all_goals omega

lemma function_local (c : Cursor) : LocalAt c function := by
  rw [function_eq]
  refine (expect_local _ c).bind fun _ c₁ h₁ => (parameters_local c₁).bind fun _ c₂ h₂ => ?_
  have := left_lt_of_outcome h₁
  have := left_lt_of_outcome h₂
  exact (block_local c₂).bind fun _ _ _ => .pure _
termination_by 4 * c.left + 3
decreasing_by all_goals omega

lemma list_local (close : Sign) (c : Cursor) : LocalAt c (list close) := by
  rw [list_eq]
  refine .look ?_
  split
  · exact .pass (.pure _)
  · exact items_local close [] c
termination_by 4 * c.left + 3
decreasing_by all_goals omega

/-- As with names, the token behind each item is a comma or the closing sign. -/
lemma items_local (close : Sign) (acc : List Expr) (c : Cursor) : LocalAt c (items close acc) := by
  refine .congr (fun e => items_eq close acc _ e _) ?_
  refine (expression_local 0 c).bind fun e c₁ h₁ => .look ?_
  have := left_lt_of_outcome h₁
  have := c₁.left_next_le
  split
  · exact .pass (items_local close (e :: acc) c₁.next)
  · exact (expect_local _ c₁).bind fun _ _ _ => .pure _
termination_by 4 * c.left + 2
decreasing_by all_goals omega

/-- A hash may end behind a comma, so the token behind it is looked at too. -/
lemma pairs_local (acc : List (Expr × Expr)) (c : Cursor) : LocalAt c (pairs acc) := by
  refine .congr (fun e => pairs_eq acc _ e _) (.look ?_)
  split
  · exact .pass (.pure _)
  refine (expression_local 0 c).bind fun key c₁ h₁ => (expect_local _ c₁).bind fun _ c₂ h₂ => ?_
  have := left_lt_of_outcome h₁
  have := left_lt_of_outcome h₂
  refine (expression_local 0 c₂).bind fun value c₃ h₃ => .look ?_
  have := left_lt_of_outcome h₃
  split
  · exact pairs_local _ c₃
  · refine (expect_local _ c₃).bind fun _ c₄ h₄ => ?_
    have := left_lt_of_outcome h₄
    exact pairs_local _ c₄
termination_by 4 * c.left + 2
decreasing_by all_goals omega

lemma block_local (c : Cursor) : LocalAt c block := by
  rw [block_eq]
  refine (expect_local _ c).bind fun _ c₁ h₁ => ?_
  have := left_lt_of_outcome h₁
  exact body_local [] c₁
termination_by 4 * c.left
decreasing_by all_goals omega

/-- A block ends at its brace, and fails at the end of the text. -/
lemma body_local (acc : List Stmt) (c : Cursor) : LocalAt c (body acc) := by
  refine .congr (fun e => body_eq acc _ e _) (.look ?_)
  have one : LocalAt c (statement >>= fun s => body (s :: acc)) := by
    refine (statement_local c).bind fun s c₁ h₁ => ?_
    have := left_lt_of_outcome h₁
    exact body_local (s :: acc) c₁
  cases ht : c.peek with
  | eof => exact .throw _
  | sign s =>
      have := Cursor.left_next_lt (c := c) (by simp [ht])
      cases s with
      | closeBrace => exact .pass (.pure _)
      | semicolon => exact .pass (body_local acc c.next)
      | _ => exact one
  | _ => exact one
termination_by 4 * c.left + 3
decreasing_by all_goals omega

/-- What a statement is shows in its first token, and for an assignment in the one behind its
target. -/
lemma statement_local (c : Cursor) : LocalAt c statement := by
  rw [statement_eq]
  have plain : LocalAt c (statementAt .eof) := by
    refine (expression_local 0 c).bind fun e c₁ h₁ => .look ?_
    have := left_lt_of_outcome h₁
    have := c₁.left_next_le
    split
    · exact .pass ((expression_local 0 c₁.next).bind fun _ c₂ _ => ended_local _ c₂)
    · exact ended_local _ c₁
  refine .look ?_
  cases ht : c.peek with
  | keyword k =>
      have := Cursor.left_next_lt (c := c) (by simp [ht])
      cases k with
      | letWord =>
          refine .pass ((name_local _ c.next).bind fun n c₁ h₁ =>
            (expect_local _ c₁).bind fun _ c₂ h₂ => ?_)
          have := left_lt_of_outcome h₁
          have := left_lt_of_outcome h₂
          exact (expression_local 0 c₂).bind fun _ c₃ _ => ended_local _ c₃
      | returnWord => exact .pass ((expression_local 0 c.next).bind fun _ c₁ _ => ended_local _ c₁)
      | _ => exact plain
  | _ => exact plain
termination_by 4 * c.left + 2
decreasing_by all_goals omega

end

/-- A program is read up to the end of the text. -/
lemma statements_local (acc : List Stmt) (c : Cursor) : LocalAt c (statements acc) := by
  refine .congr (fun e => statements_eq acc _ e _) (.look ?_)
  have one : LocalAt c (statement >>= fun s => statements (s :: acc)) := by
    refine (statement_local c).bind fun s c₁ h₁ => ?_
    have := left_lt_of_outcome h₁
    exact statements_local (s :: acc) c₁
  cases ht : c.peek with
  | eof => exact .pure _
  | sign s =>
      have := Cursor.left_next_lt (c := c) (by simp [ht])
      cases s with
      | semicolon => exact .pass (statements_local acc c.next)
      | _ => exact one
  | _ => exact one
termination_by c.left
decreasing_by all_goals omega

end Reader

/-! ## Errors -/

/-- The tokens that are looked at. -/
def Lexeme.visible (ls : List Lexeme) : List Lexeme :=
  ls.filter fun l => !l.token.isComment

namespace Program

open Lexeme (visible)

/-- The fault at which reading `ls` is given up, and the cursor there. -/
def failure? (ls : List Lexeme) : Option ParseFailure :=
  match Parser.statements [] ((Cursor.ofLexemes ls).left + 1) (.ofLexemes ls)
    (Nat.lt_succ_self _) with
  | .ok _ => none
  | .error f => some f

/-- Reading `ls` is given up with the error `e` when `i` of its visible tokens have been passed. -/
def FailsAt (ls : List Lexeme) (e : ParseError) (i : Nat) : Prop :=
  ∃ f, failure? ls = some f ∧ f.error = e ∧ i ≤ (visible ls).length ∧
    f.cursor.ahead = (visible ls).drop i

variable {ls ls' : List Lexeme} {e : ParseError} {i : Nat} {l : Lexeme}

/-- The failure is that of the reader of statements, from the first token on. -/
lemma failure?_eq_some {f : ParseFailure} :
    failure? ls = some f ↔ Reader.statements [] (.ofLexemes ls) = .error f.fault f.cursor := by
  rw [Reader.statements, Reader.outcome_eq_error, failure?]
  split <;> simp_all

/-- An error is a failure without its cursor. -/
lemma ofLexemes_eq_error_iff :
    ofLexemes ls = .error e ↔ ∃ f, failure? ls = some f ∧ f.error = e := by
  rw [ofLexemes, Parser.program, failure?]
  split <;> simp_all

/-- So it comes after some number of tokens. -/
lemma exists_failsAt_iff : ofLexemes ls = .error e ↔ ∃ i, FailsAt ls e i := by
  rw [ofLexemes_eq_error_iff]
  constructor
  · rintro ⟨f, hf, he⟩
    -- reading never moves back, so the tokens ahead of the failure are the last ones of the list
    have onward := (Reader.statements_local [] (.ofLexemes ls)).onward
    rw [failure?_eq_some.mp hf] at onward
    exact ⟨_, f, hf, he, Nat.sub_le _ _, List.suffix_iff_eq_drop.mp onward⟩
  · rintro ⟨i, f, hf, he, -⟩
    exact ⟨f, hf, he⟩

/-- A failure inside the list is reported at the token that was not passed. -/
lemma FailsAt.pos_eq (h : FailsAt ls e i) (hl : (visible ls)[i]? = some l) : e.pos = l.pos := by
  obtain ⟨f, -, rfl, -, hahead⟩ := h
  obtain ⟨hi, rfl⟩ := List.getElem?_eq_some_iff.mp hl
  show f.cursor.place = _
  rw [Cursor.place, hahead, List.drop_eq_getElem_cons hi]

section Agreeing

variable (h : (visible ls').take (i + 1) = (visible ls).take (i + 1))
include h

/-- Two lists with the same tokens up to one of them look alike up to there. -/
lemma alike_of_take_eq :
    Cursor.Alike ((visible ls).drop (i + 1)) ((visible ls').drop (i + 1)) (.ofLexemes ls)
      (.ofLexemes ls') := by
  have same : Cursor.Alike _ _
      ⟨_ ++ (visible ls).drop (i + 1), Pos.start⟩ ⟨_ ++ (visible ls').drop (i + 1), Pos.start⟩ :=
    .mk ((visible ls).take (i + 1)) Pos.start
  rwa [List.take_append_drop, ← h, List.take_append_drop] at same

/-- What is left in the other list starts with that token. -/
lemma drop_of_take_eq (hi : i < (visible ls).length) :
    (visible ls').drop i = ((visible ls).take (i + 1)).drop i ++ (visible ls').drop (i + 1) := by
  have hle : i ≤ ((visible ls).take (i + 1)).length := by
    rw [List.length_take]
    omega
  rw [← List.drop_append_of_le_length hle, ← h, List.take_append_drop]

/-- The other list is not shorter than that. -/
lemma le_length_of_take_eq (hi : i < (visible ls).length) : i ≤ (visible ls').length := by
  have := congrArg List.length h
  rw [List.length_take, List.length_take] at this
  omega

end Agreeing

/-- Every list that agrees with `ls` up to and including the token that was not passed fails there
as well. -/
lemma FailsAt.of_take_eq (h : FailsAt ls e i) (hi : i < (visible ls).length)
    (htake : (visible ls').take (i + 1) = (visible ls).take (i + 1)) : FailsAt ls' e i := by
  obtain ⟨f, hf, rfl, -, hahead⟩ := h
  have hstop := failure?_eq_some.mp hf
  have hinside : ((visible ls).drop (i + 1)).length < f.cursor.left := by
    rw [Cursor.left, hahead, List.length_drop, List.length_drop]
    omega
  have hsame := (Reader.statements_local [] _).same (alike_of_take_eq htake) (by rwa [hstop])
  rw [hstop] at hsame
  generalize hd : Reader.statements [] (Cursor.ofLexemes ls') = y at hsame
  cases hsame with
  | @error _ d _ hcd =>
      refine ⟨⟨f.fault, d⟩, failure?_eq_some.mpr hd, ?_, le_length_of_take_eq htake hi, ?_⟩
      · show ParseError.mk f.fault d.place = ⟨f.fault, f.cursor.place⟩
        rw [(hcd.cons hinside).2.1]
      · -- both cursors stand before the same token, and then each list goes on as it does
        generalize f.cursor = c at hahead hcd
        obtain ⟨pre, last⟩ := hcd
        rw [drop_of_take_eq rfl hi] at hahead
        rw [drop_of_take_eq htake hi, ← List.append_cancel_right hahead]

/-- **A parse error depends on nothing behind it.**  Parsing fails exactly if it is given up after
some number of visible tokens.  If there is a token after those, the error is reported at its place,
and every list with the same visible tokens up to and including this one fails with the same error,
at the same token. -/
theorem ofLexemes_error_local (ls : List Lexeme) (e : ParseError) :
    (ofLexemes ls = .error e ↔ ∃ i, FailsAt ls e i) ∧
      ∀ i l, FailsAt ls e i → (visible ls)[i]? = some l →
        e.pos = l.pos ∧
          ∀ ls', (visible ls').take (i + 1) = (visible ls).take (i + 1) →
            ofLexemes ls' = .error e ∧ FailsAt ls' e i := by
  refine ⟨exists_failsAt_iff, fun i l hfail hl => ⟨hfail.pos_eq hl, fun ls' htake => ?_⟩⟩
  have hi : i < (visible ls).length := (List.getElem?_eq_some_iff.mp hl).1
  have hfail' := hfail.of_take_eq hi htake
  exact ⟨exists_failsAt_iff.mpr ⟨i, hfail'⟩, hfail'⟩

/-- `fn(a, 1) {}` with a comment inside: a number stands where a name has to. -/
def misnamed : List Lexeme :=
  [⟨.keyword .fnWord, ⟨1, 1⟩⟩, ⟨.sign .openParen, ⟨1, 3⟩⟩, ⟨.ident "a", ⟨1, 4⟩⟩,
    ⟨.comment "why", ⟨1, 6⟩⟩,
    ⟨.sign .comma, ⟨2, 1⟩⟩, ⟨.integer 1, ⟨2, 3⟩⟩, ⟨.sign .closeParen, ⟨2, 4⟩⟩,
    ⟨.sign .openBrace, ⟨2, 6⟩⟩,
    ⟨.sign .closeBrace, ⟨2, 7⟩⟩, ⟨.eof, ⟨2, 8⟩⟩]

/-- The first tokens of `misnamed` up to the number, without the comment, and then something
else. -/
def misnamedEarly : List Lexeme :=
  [⟨.keyword .fnWord, ⟨1, 1⟩⟩, ⟨.sign .openParen, ⟨1, 3⟩⟩, ⟨.ident "a", ⟨1, 4⟩⟩,
    ⟨.sign .comma, ⟨2, 1⟩⟩, ⟨.integer 1, ⟨2, 3⟩⟩, ⟨.sign .plus, ⟨2, 5⟩⟩, ⟨.comment "cut", ⟨2, 7⟩⟩]

/-- Both lists fail at the number, and the comment is not counted. -/
theorem misnamed_error_local :
    FailsAt misnamed ⟨.expectedName .inParameters (.integer 1), ⟨2, 3⟩⟩ 4 ∧
      ofLexemes misnamedEarly = .error ⟨.expectedName .inParameters (.integer 1), ⟨2, 3⟩⟩ := by
  have hfail : FailsAt misnamed ⟨.expectedName .inParameters (.integer 1), ⟨2, 3⟩⟩ 4 :=
    ⟨⟨.expectedName .inParameters (.integer 1), ⟨misnamed.drop 5, ⟨2, 1⟩⟩⟩, by decide +kernel, rfl,
      by decide, rfl⟩
  have hlocal := (ofLexemes_error_local misnamed _).2 4 ⟨.integer 1, ⟨2, 3⟩⟩ hfail rfl
  exact ⟨hfail, (hlocal.2 misnamedEarly rfl).1⟩

end Program

end Marmoset
