import Marmoset.Proofs.AcceptedPhrases

/-!
# The parser as steps of one cursor

The functions of the parser carry in their types how much is left to read, and their loops a bound.
Here this is forgotten.  A `Reader` moves a cursor and gives a value or a fault; either way it says
where the cursor stands afterwards.  Every function of the parser is a reader, and is equal to a few
others in sequence, so that a property of readers that sequences keep has to be looked at only for a
single `peek` and a single `skip`.
-/

namespace Marmoset

/-- Moves a cursor and gives a value, or a fault at the cursor where it was found. -/
abbrev Reader := EStateM ParseFault Cursor

variable {α β : Type}

/-! The bounds that the loops begin with. -/

lemma Cursor.left_le_left (c : Cursor) : c.left ≤ c.left :=
  Nat.le_refl _

lemma Cursor.left_lt_succ (c : Cursor) : c.left < c.left + 1 :=
  Nat.lt_succ_self _

namespace Reader

/-- The result of a parse, and where the cursor stands, without the bound. -/
def outcome {n : Nat} : Parse α n → EStateM.Result ParseFault Cursor α
  | .ok p => .ok p.value p.rest
  | .error f => .error f.fault f.cursor

/-! ## The readers -/

/-- The next token. -/
def peek : Reader Token := fun c =>
  .ok c.peek c

/-- Passes the next token. -/
def skip : Reader Unit := fun c =>
  .ok () c.next

def expect (s : Sign) : Reader Unit := fun c =>
  outcome (c.expect s)

def name (place : NamePlace) : Reader String := fun c =>
  outcome (c.name place)

def names (acc : List String) : Reader (List String) := fun c =>
  outcome (Parser.names acc c.left c c.left_le_left)

def parameters : Reader (List String) := fun c =>
  outcome (Parser.parameters c)

def expression (power : Nat) : Reader Expr := fun c =>
  outcome (Parser.expression power c)

def climb (power : Nat) (left : Expr) : Reader Expr := fun c =>
  outcome (Parser.climb power left (c.left + 1) c c.left_lt_succ)

def operand : Reader Expr := fun c =>
  outcome (Parser.operand c)

def conditional : Reader Expr := fun c =>
  outcome (Parser.conditional c)

def function : Reader Expr := fun c =>
  outcome (Parser.function c)

def list (close : Sign) : Reader (List Expr) := fun c =>
  outcome (Parser.list close c)

def items (close : Sign) (acc : List Expr) : Reader (List Expr) := fun c =>
  outcome (Parser.items close acc c.left c c.left_le_left)

def pairs (acc : List (Expr × Expr)) : Reader (List (Expr × Expr)) := fun c =>
  outcome (Parser.pairs acc (c.left + 1) c c.left_lt_succ)

def block : Reader (List Stmt) := fun c =>
  outcome (Parser.block c)

def body (acc : List Stmt) : Reader (List Stmt) := fun c =>
  outcome (Parser.body acc (c.left + 1) c c.left_lt_succ)

/-- Passes the semicolon that may end the statement `s`. -/
def ended (s : Stmt) : Reader Stmt := fun c =>
  .ok s c.skipSemicolon

def statement : Reader Stmt := fun c =>
  outcome (Parser.statement c)

def statements (acc : List Stmt) : Reader Program := fun c =>
  outcome (Parser.statements acc (c.left + 1) c c.left_lt_succ)

/-! ## What the readers that look at a token do with it -/

def nameAt (place : NamePlace) : Token → Reader String
  | .ident n => do
    skip
    return n
  | t => throw (.expectedName place t)

/-- Goes on from `left` behind a sign that joins it to what follows. -/
def join (power : Nat) (left : Expr) : Sign → Reader Expr
  | .openParen => do
    let args ← list .closeParen
    climb power (.call left args)
  | .openBracket => do
    let index ← expression 0
    expect .closeBracket
    climb power (.index left index)
  | s => do
    let right ← expression s.power
    climb power (.binary s.text left right)

def climbAt (power : Nat) (left : Expr) : Token → Reader Expr
  | .sign s => if s.power ≤ power then pure left else skip >>= fun _ => join power left s
  | _ => pure left

/-- The operand that a sign begins. -/
def signed : Sign → Reader Expr
  | .openParen => do
    skip
    let inner ← expression 0
    expect .closeParen
    return inner
  | .openBracket => do
    skip
    let items ← list .closeBracket
    return .array items
  | .openBrace => do
    skip
    let ps ← pairs []
    return .hash ps
  | s =>
    if s.isUnary then do
      skip
      let right ← expression Sign.unaryPower
      return .unary s.text right
    else throw (.noExpression (.sign s))

def operandAt (t : Token) : Reader Expr :=
  match t.atom?, t with
  | some e, _ => do
    skip
    return e
  | none, .eof => throw .endForExpression
  | none, .sign s => signed s
  | none, .keyword .ifWord => skip >>= fun _ => conditional
  | none, .keyword .fnWord => skip >>= fun _ => function
  | none, t => throw (.noExpression t)

def bodyAt (acc : List Stmt) : Token → Reader (List Stmt)
  | .eof => throw .endInBlock
  | .sign .closeBrace => do
    skip
    return acc.reverse
  | .sign .semicolon => skip >>= fun _ => body acc
  | _ => do
    let s ← statement
    body (s :: acc)

def statementAt : Token → Reader Stmt
  | .keyword .letWord => do
    skip
    let n ← name .afterLet
    expect .assign
    let value ← expression 0
    ended (.define n (value.named n))
  | .keyword .returnWord => do
    skip
    let value ← expression 0
    ended (.ret value)
  | _ => do
    let e ← expression 0
    if (← peek) = .sign .assign then
      skip
      let value ← expression 0
      ended (.assign e (e.assignedTo value))
    else
      ended (.expr e)

def statementsAt (acc : List Stmt) : Token → Reader Program
  | .eof => pure acc.reverse
  | .sign .semicolon => skip >>= fun _ => statements acc
  | _ => do
    let s ← statement
    statements (s :: acc)

/-! ## Each reader in terms of the others -/

/-- One part after the other; the bounds between them do not matter. -/
lemma outcome_bind {n m : Nat} {x : Parse α n} {f : Parsed α n → Parse β m} {r : Reader α}
    {k : α → Reader β} {c : Cursor} (hx : outcome x = r c)
    (hf : ∀ a c' h, outcome (f ⟨a, c', h⟩) = k a c') :
    outcome (x >>= f) = (r >>= k) c := by
  show _ = EStateM.bind r k c
  rw [EStateM.bind, ← hx]
  cases x with
  | error f => rfl
  | ok p => exact hf p.value p.rest p.within

/-- Looking does not move the cursor. -/
lemma peek_bind {f : Token → Reader α} {c : Cursor} : (peek >>= f) c = f c.peek c :=
  rfl

/-- Passing a token moves the cursor to the next one. -/
lemma skip_bind {f : Unit → Reader α} {c : Cursor} : (skip >>= f) c = f () c.next :=
  rfl

/-- A sign is expected by looking at the next token. -/
lemma expect_eq (s : Sign) :
    expect s = peek >>= fun t => if t = .sign s then skip else throw (.expected s t) := by
  funext c
  rw [peek_bind, expect, Cursor.expect]
  by_cases h : c.peek = .sign s
  · rw [dif_pos h, if_pos h]
    rfl
  · rw [dif_neg h, if_neg h]
    rfl

/-- What a look shows is the next token and what is behind it. -/
lemma look_eq {c rest : Cursor} {t : Token} {hr : rest.left < c.left}
    (h : c.look = .token t rest hr) :
    c.peek = t ∧ c.next = rest :=
  ⟨(Cursor.look_eq_token h).peek, (Cursor.look_eq_token h).next⟩

lemma name_eq (place : NamePlace) : name place = peek >>= nameAt place := by
  funext c
  rw [peek_bind, name, Cursor.name]
  cases hl : c.look with
  | stop =>
      rw [Cursor.look_eq_stop hl]
      rfl
  | token t rest hr =>
      obtain ⟨ht, rfl⟩ := look_eq hl
      rw [ht]
      cases t with
      | _ => rfl

/-- A name, and more of them behind a comma; the bound does not matter. -/
lemma names_eq (acc : List String) (bound : Nat) (c : Cursor) (h : c.left ≤ bound) :
    outcome (Parser.names acc bound c h) = (do
      let n ← name .inParameters
      if (← peek) = .sign .comma then
        skip
        names (n :: acc)
      else
        expect .closeParen
        return (n :: acc).reverse : Reader _) c := by
  rw [Parser.names]
  refine outcome_bind rfl fun n c₁ h₁ => ?_
  have := c₁.left_next_le
  rw [peek_bind]
  by_cases hp : c₁.peek = .sign .comma
  · rw [if_pos hp]
    simp only [if_pos hp]
    exact (names_eq _ _ _ _).trans (names_eq _ _ _ _).symm
  · rw [if_neg hp]
    simp only [if_neg hp]
    exact outcome_bind rfl fun _ _ _ => rfl
termination_by c.left
decreasing_by all_goals omega

/-- Parameters end at once or start with a name. -/
lemma parameters_eq :
    parameters = peek >>= fun t => if t = .sign .closeParen then skip >>= fun _ =>
      pure [] else names [] := by
  funext c
  rw [peek_bind, parameters, Parser.parameters]
  by_cases h : c.peek = .sign .closeParen
  · rw [dif_pos h, if_pos h]
    rfl
  · rw [dif_neg h, if_neg h]
    rfl

/-- The climb is decided by the next token. -/
lemma climb_eq (power : Nat) (left : Expr) (bound : Nat) (c : Cursor) (h : c.left < bound) :
    outcome (Parser.climb power left bound c h) = (peek >>= climbAt power left) c := by
  -- further on the bound makes no difference
  have again (left' : Expr) (c' : Cursor) (hc : c'.left < c.left) (h' : c'.left < bound) :
      outcome (Parser.climb power left' bound c' h') = climb power left' c' :=
    (climb_eq power left' bound c' h').trans (climb_eq power left' _ c' c'.left_lt_succ).symm
  rw [Parser.climb, peek_bind]
  cases hl : c.look with
  | stop =>
      rw [Cursor.look_eq_stop hl]
      rfl
  | token t rest hr =>
      obtain ⟨ht, rfl⟩ := look_eq hl
      rw [ht]
      cases t with
      | sign s =>
          rw [climbAt]
          by_cases hs : s.power ≤ power
          · simp only [if_pos hs]
            rfl
          · simp only [if_neg hs]
            rw [skip_bind]
            cases s with
            | openParen =>
                exact outcome_bind rfl fun args c₁ h₁ => again _ c₁ (by omega) _
            | openBracket =>
                exact outcome_bind rfl fun index c₁ h₁ =>
                  outcome_bind rfl fun _ c₂ (h₂ : c₂.left < c₁.left) =>
                  again _ c₂ (by omega) _
            | _ => exact outcome_bind rfl fun right c₁ h₁ => again _ c₁ (by omega) _
      | _ => rfl
termination_by c.left
decreasing_by all_goals omega

/-- An expression is an operand from which the climb goes on. -/
lemma expression_eq (power : Nat) : expression power = operand >>= climb power := by
  funext c
  rw [expression, Parser.expression]
  exact outcome_bind rfl fun _ _ _ => (climb_eq _ _ _ _ _).trans (climb_eq _ _ _ _ _).symm

/-- A conditional, with the word for a second branch or without. -/
lemma conditional_eq : conditional = (do
    expect .openParen
    let condition ← expression 0
    expect .closeParen
    let yes ← block
    if (← peek) = .keyword .elseWord then
      skip
      let no ← block
      return .cond condition yes (some no)
    else
      return .cond condition yes none) := by
  funext c
  rw [conditional, Parser.conditional]
  refine outcome_bind rfl fun _ _ _ => outcome_bind rfl fun _ _ _ => outcome_bind rfl fun _ _ _ =>
    outcome_bind rfl fun yes c₁ _ => ?_
  rw [peek_bind]
  by_cases hp : c₁.peek = .keyword .elseWord
  · simp only [if_pos hp]
    exact outcome_bind rfl fun _ _ _ => rfl
  · simp only [if_neg hp]
    rfl

/-- A function after its word: parameters and a block. -/
lemma function_eq : function = (do
    expect .openParen
    let names ← parameters
    let body ← block
    return .function none names body) := by
  funext c
  rw [function, Parser.function]
  exact outcome_bind rfl fun _ _ _ => outcome_bind rfl fun _ _ _ =>
    outcome_bind rfl fun _ _ _ => rfl

/-- A list ends at once or starts with an item. -/
lemma list_eq (close : Sign) :
    list close = peek >>= fun t => if t = .sign close then skip >>= fun _ =>
      pure [] else items close [] := by
  funext c
  rw [peek_bind, list, Parser.list]
  by_cases h : c.peek = .sign close
  · rw [dif_pos h, if_pos h]
    rfl
  · rw [dif_neg h, if_neg h]
    rfl

/-- An item, and more of them behind a comma. -/
lemma items_eq (close : Sign) (acc : List Expr) (bound : Nat) (c : Cursor) (h : c.left ≤ bound) :
    outcome (Parser.items close acc bound c h) = (do
      let e ← expression 0
      if (← peek) = .sign .comma then
        skip
        items close (e :: acc)
      else
        expect close
        return (e :: acc).reverse : Reader _) c := by
  rw [Parser.items]
  refine outcome_bind rfl fun e c₁ h₁ => ?_
  have := c₁.left_next_le
  rw [peek_bind]
  by_cases hp : c₁.peek = .sign .comma
  · simp only [if_pos hp]
    exact (items_eq _ _ _ _ _).trans (items_eq _ _ _ _ _).symm
  · simp only [if_neg hp]
    exact outcome_bind rfl fun _ _ _ => rfl
termination_by c.left
decreasing_by all_goals omega

/-- A pair, and more of them behind a comma; the brace may also follow the comma. -/
lemma pairs_eq (acc : List (Expr × Expr)) (bound : Nat) (c : Cursor) (h : c.left < bound) :
    outcome (Parser.pairs acc bound c h) = (do
      if (← peek) = .sign .closeBrace then
        skip
        return acc.reverse
      else
        let key ← expression 0
        expect .colon
        let value ← expression 0
        if (← peek) = .sign .closeBrace then
          pairs ((key, value) :: acc)
        else
          expect .comma
          pairs ((key, value) :: acc) : Reader _) c := by
  have again (acc' : List (Expr × Expr)) (c' : Cursor) (hc : c'.left < c.left)
      (h' : c'.left < bound) :
      outcome (Parser.pairs acc' bound c' h') = pairs acc' c' :=
    (pairs_eq acc' bound c' h').trans (pairs_eq acc' _ c' c'.left_lt_succ).symm
  rw [Parser.pairs, peek_bind]
  by_cases hp : c.peek = .sign .closeBrace
  · simp only [if_pos hp]
    rfl
  · simp only [if_neg hp]
    refine outcome_bind rfl fun key c₁ h₁ => outcome_bind rfl fun _ c₂ (h₂ : c₂.left < c₁.left) =>
      outcome_bind rfl fun value c₃ (h₃ : c₃.left < c₂.left) => ?_
    rw [peek_bind]
    by_cases hq : c₃.peek = .sign .closeBrace
    · simp only [if_pos hq]
      exact again _ c₃ (by omega) _
    · simp only [if_neg hq]
      exact outcome_bind rfl fun _ c₄ (h₄ : c₄.left < c₃.left) => again _ c₄ (by omega) _
termination_by c.left
decreasing_by all_goals omega

/-- An operand is decided by the next token. -/
lemma operand_eq : operand = peek >>= operandAt := by
  funext c
  rw [peek_bind, operand, Parser.operand]
  cases hl : c.look with
  | stop =>
      rw [Cursor.look_eq_stop hl]
      rfl
  | token t rest hr =>
      obtain ⟨ht, rfl⟩ := look_eq hl
      rw [ht]
      cases t with
      | sign s =>
          cases s with
          | openParen => exact outcome_bind rfl fun _ _ _ => outcome_bind rfl fun _ _ _ => rfl
          | openBracket => exact outcome_bind rfl fun _ _ _ => rfl
          | openBrace =>
              refine outcome_bind ?_ fun _ _ _ => rfl
              exact (pairs_eq _ _ _ _).trans (pairs_eq _ _ _ _).symm
          | bang => exact outcome_bind rfl fun _ _ _ => rfl
          | minus => exact outcome_bind rfl fun _ _ _ => rfl
          | _ => rfl
      | keyword k =>
          cases k with
          | ifWord =>
              exact (outcome_bind rfl fun _ _ _ => rfl).trans
                (congrFun (bind_pure conditional) c.next)
          | fnWord =>
              exact (outcome_bind rfl fun _ _ _ => rfl).trans (congrFun (bind_pure function) c.next)
          | _ => rfl
      | eof => exact absurd ht (Cursor.look_eq_token hl).peek_ne_eof
      | _ => rfl

/-- A body is decided by the next token, statement by statement. -/
lemma body_eq (acc : List Stmt) (bound : Nat) (c : Cursor) (h : c.left < bound) :
    outcome (Parser.body acc bound c h) = (peek >>= bodyAt acc) c := by
  have again (acc' : List Stmt) (c' : Cursor) (hc : c'.left < c.left) (h' : c'.left < bound) :
      outcome (Parser.body acc' bound c' h') = body acc' c' :=
    (body_eq acc' bound c' h').trans (body_eq acc' _ c' c'.left_lt_succ).symm
  rw [Parser.body, peek_bind]
  cases hl : c.look with
  | stop =>
      rw [Cursor.look_eq_stop hl]
      rfl
  | token t rest hr =>
      obtain ⟨ht, rfl⟩ := look_eq hl
      rw [ht]
      cases t with
      | eof => exact absurd ht (Cursor.look_eq_token hl).peek_ne_eof
      | sign s =>
          cases s with
          | closeBrace => rfl
          | semicolon => exact again acc c.next hr _
          | _ => exact outcome_bind rfl fun s c₁ h₁ => again (s :: acc) c₁ h₁ _
      | _ => exact outcome_bind rfl fun s c₁ h₁ => again (s :: acc) c₁ h₁ _
termination_by c.left
decreasing_by all_goals omega

lemma block_eq : block = expect .openBrace >>= fun _ => body [] := by
  funext c
  rw [block, Parser.block]
  exact outcome_bind rfl fun _ _ _ => (body_eq _ _ _ _).trans (body_eq _ _ _ _).symm

/-- One semicolon may end a statement. -/
lemma ended_eq (s : Stmt) :
    ended s = peek >>= fun t => if t = .sign .semicolon then skip >>= fun _ =>
      pure s else pure s := by
  funext c
  rw [peek_bind, ended, Cursor.skipSemicolon]
  by_cases h : c.peek = .sign .semicolon
  · rw [if_pos h, if_pos h]
    rfl
  · rw [if_neg h, if_neg h]
    rfl

/-- A statement that has no word of its own in front begins like any other. -/
lemma statementAt_plain {t : Token} (hlet : t ≠ .keyword .letWord)
    (hret : t ≠ .keyword .returnWord) :
    statementAt t = statementAt .eof := by
  cases t with
  | keyword k =>
      cases k with
      | letWord => exact absurd rfl hlet
      | returnWord => exact absurd rfl hret
      | _ => rfl
  | _ => rfl

/-- A statement is decided by its first token. -/
lemma statement_eq : statement = peek >>= statementAt := by
  funext c
  rw [peek_bind, statement, Parser.statement]
  split
  · next rest hr hl =>
      obtain ⟨ht, rfl⟩ := look_eq hl
      rw [ht]
      exact outcome_bind rfl fun _ _ _ => outcome_bind rfl fun _ _ _ =>
        outcome_bind rfl fun _ _ _ => rfl
  · next rest hr hl =>
      obtain ⟨ht, rfl⟩ := look_eq hl
      rw [ht]
      exact outcome_bind rfl fun _ _ _ => rfl
  · next hlet hret =>
      have hlet' : c.peek ≠ .keyword .letWord := fun ht =>
        (Cursor.passes_next ht (by simp)).look.elim (hlet c.next)
      have hret' : c.peek ≠ .keyword .returnWord := fun ht =>
        (Cursor.passes_next ht (by simp)).look.elim (hret c.next)
      rw [statementAt_plain hlet' hret']
      refine outcome_bind rfl fun e c₁ h₁ => ?_
      rw [peek_bind]
      by_cases hp : c₁.peek = .sign .assign
      · simp only [if_pos hp]
        exact outcome_bind rfl fun _ _ _ => rfl
      · simp only [if_neg hp]
        rfl

/-- A program is decided by the next token, statement by statement. -/
lemma statements_eq (acc : List Stmt) (bound : Nat) (c : Cursor) (h : c.left < bound) :
    outcome (Parser.statements acc bound c h) = (peek >>= statementsAt acc) c := by
  have again (acc' : List Stmt) (c' : Cursor) (hc : c'.left < c.left) (h' : c'.left < bound) :
      outcome (Parser.statements acc' bound c' h') = statements acc' c' :=
    (statements_eq acc' bound c' h').trans (statements_eq acc' _ c' c'.left_lt_succ).symm
  rw [Parser.statements, peek_bind]
  cases hl : c.look with
  | stop =>
      rw [Cursor.look_eq_stop hl]
      rfl
  | token t rest hr =>
      obtain ⟨ht, rfl⟩ := look_eq hl
      rw [ht]
      cases t with
      | eof => exact absurd ht (Cursor.look_eq_token hl).peek_ne_eof
      | sign s =>
          cases s with
          | semicolon => exact again acc c.next hr _
          | _ => exact outcome_bind rfl fun s c₁ h₁ => again (s :: acc) c₁ h₁ _
      | _ => exact outcome_bind rfl fun s c₁ h₁ => again (s :: acc) c₁ h₁ _
termination_by c.left
decreasing_by all_goals omega

end Reader

end Marmoset
