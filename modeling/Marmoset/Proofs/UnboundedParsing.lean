import Marmoset.Proofs.ParseFailures

/-!
# Parsing without a bound

The functions of the parser say in their types that they move a cursor on, and a cursor cannot leave
its tokens.  Here the parser is written without either: the tokens stay where they are, a position
goes up by one with every token that is passed, whether there is one or not (`Tape.advance`), and
nothing but the tokens makes the recursion stop.  Whether it stops is seen by how deep it goes:
every function is given a `limit` for the depth of the recursion, in which each round of a loop
counts as a call, and has no result (`none`) if this is not enough.

* **`Scan.expression_keeps`** and its companions — a limit of a few calls for each token is enough,
  the outcome is that of the parser, and the position has moved over tokens of the list only, none
  of which marks the end.
-/

namespace Marmoset

/-- The tokens, how many of them were passed, and the place of the last one passed. -/
structure Tape where
  tokens : List Lexeme
  pos : Nat
  last : Pos

namespace Tape

/-- The tape before the first of `ls`. -/
def ofLexemes (ls : List Lexeme) : Tape :=
  ⟨Lexeme.visible ls, 0, Pos.start⟩

/-- The next token; beyond the last one it is the end of the text. -/
def peek (t : Tape) : Token :=
  match t.tokens[t.pos]? with
  | none => .eof
  | some l => l.token

/-- The position goes up by one, also beyond the last token. -/
def advance (t : Tape) : Tape :=
  match t.tokens[t.pos]? with
  | none => { t with pos := t.pos + 1 }
  | some l => { t with pos := t.pos + 1, last := l.pos }

/-- The place of the next token, or of the last one if none is ahead. -/
def place (t : Tape) : Pos :=
  match t.tokens[t.pos]? with
  | none => t.last
  | some l => l.pos

/-- The tokens that are ahead. -/
def cursor (t : Tape) : Cursor :=
  ⟨t.tokens.drop t.pos, t.last⟩

/-- The tape shows the token that is ahead. -/
lemma peek_cursor (t : Tape) : t.cursor.peek = t.peek := by
  rw [Cursor.peek, peek, cursor]
  cases h : t.tokens[t.pos]? with
  | none => rw [List.drop_eq_nil_of_le (List.getElem?_eq_none_iff.mp h)]
  | some l =>
      obtain ⟨hlt, rfl⟩ := List.getElem?_eq_some_iff.mp h
      rw [List.drop_eq_getElem_cons hlt]

/-- The place of the tape is that of the token ahead. -/
lemma place_cursor (t : Tape) : t.cursor.place = t.place := by
  rw [Cursor.place, place, cursor]
  cases h : t.tokens[t.pos]? with
  | none => rw [List.drop_eq_nil_of_le (List.getElem?_eq_none_iff.mp h)]
  | some l =>
      obtain ⟨hlt, rfl⟩ := List.getElem?_eq_some_iff.mp h
      rw [List.drop_eq_getElem_cons hlt]

/-- To advance on the tape is to pass a token. -/
lemma cursor_advance (t : Tape) : t.advance.cursor = t.cursor.next := by
  rw [Cursor.next, advance, cursor]
  cases h : t.tokens[t.pos]? with
  | none =>
      have hle := List.getElem?_eq_none_iff.mp h
      simp only [cursor, List.drop_eq_nil_of_le hle, List.drop_eq_nil_of_le (Nat.le_succ_of_le hle)]
  | some l =>
      obtain ⟨hlt, rfl⟩ := List.getElem?_eq_some_iff.mp h
      simp only [cursor, List.drop_eq_getElem_cons hlt]

/-- From `t` the position has moved to that of `t'`, over tokens of the list that do not mark the
end. -/
structure Leads (t t' : Tape) : Prop where
  tokens : t'.tokens = t.tokens
  le : t.pos ≤ t'.pos
  passed : ∀ i, t.pos ≤ i → i < t'.pos → ∃ l, t.tokens[i]? = some l ∧ l.token ≠ .eof

namespace Leads

variable {t t₁ t' : Tape}

/-- Where the position has not moved nothing was passed. -/
lemma refl (t : Tape) : t.Leads t where
  tokens := rfl
  le := Nat.le_refl _
  passed _ hle hlt := absurd hlt (Nat.not_lt.mpr hle)

/-- What was passed twice was passed. -/
lemma trans (h : t.Leads t₁) (h' : t₁.Leads t') : t.Leads t' where
  tokens := h'.tokens.trans h.tokens
  le := Nat.le_trans h.le h'.le
  passed i hle hlt := by
    by_cases hi : i < t₁.pos
    · exact h.passed i hle hi
    · rw [← h.tokens]
      exact h'.passed i (Nat.not_lt.mp hi) hlt

/-- A token that does not mark the end is passed. -/
lemma advance (h : t.peek ≠ .eof) : t.Leads t.advance := by
  rw [peek] at h
  rw [Tape.advance]
  cases hl : t.tokens[t.pos]? with
  | none =>
      rw [hl] at h
      exact absurd rfl h
  | some l =>
      rw [hl] at h
      refine ⟨rfl, Nat.le_succ _, fun i hle hlt => ⟨l, ?_, h⟩⟩
      rwa [show i = t.pos from Nat.le_antisymm (Nat.le_of_lt_succ hlt) hle]

/-- What was passed is in the list. -/
lemma pos_le_length (h : t.Leads t') (hlt : t.pos < t'.pos) : t'.pos ≤ t.tokens.length := by
  obtain ⟨l, hl, -⟩ := h.passed (t'.pos - 1) (by omega) (by omega)
  have := (List.getElem?_eq_some_iff.mp hl).1
  omega

/-- Without a token to pass the position does not move. -/
lemma pos_le_max (h : t.Leads t') : t'.pos ≤ max t.pos t.tokens.length := by
  rcases Nat.eq_or_lt_of_le h.le with heq | hlt
  · rw [← heq]
    exact Nat.le_max_left _ _
  · exact Nat.le_trans (h.pos_le_length hlt) (Nat.le_max_right _ _)

/-- What is ahead tells where the position is. -/
lemma eq_of_cursor (h₁ : t.Leads t₁) (h' : t.Leads t') (hc : t₁.cursor = t'.cursor) : t₁ = t' := by
  obtain ⟨hdrop, hlast⟩ := Cursor.mk.inj hc
  have hlength := congrArg List.length hdrop
  rw [List.length_drop, List.length_drop, h₁.tokens, h'.tokens] at hlength
  have hle₁ := h₁.le
  have hle' := h'.le
  have hmax₁ := h₁.pos_le_max
  have hmax' := h'.pos_le_max
  have hpos : t₁.pos = t'.pos := by omega
  obtain ⟨tokens₁, pos₁, last₁⟩ := t₁
  obtain ⟨tokens', pos', last'⟩ := t'
  rw [Tape.mk.injEq]
  exact ⟨h₁.tokens.trans h'.tokens.symm, hpos, hlast⟩

/-- If fewer tokens are ahead then some were passed. -/
lemma pos_lt (h : t.Leads t') (hleft : t'.cursor.left < t.cursor.left) : t.pos < t'.pos := by
  simp only [cursor, Cursor.left, List.length_drop, h.tokens] at hleft
  omega

end Leads

end Tape

/-- A part of the parser that may not come to an end. -/
abbrev Scan (α : Type) := ExceptT ParseFault (StateT Tape Option) α

namespace Scan

variable {α β : Type}

/-! ## The parser -/

/-- The limit is not enough. -/
def stuck : Scan α := fun _ => none

/-- The next token. -/
def peek : Scan Token := fun t => some (.ok t.peek, t)

/-- Passes the next token. -/
def skip : Scan Unit := fun t => some (.ok (), t.advance)

/-- Passes the sign `s`, which has to come next. -/
def expect (s : Sign) : Scan Unit := do
  let t ← peek
  if t = .sign s then skip else throw (.expected s t)

/-- Passes a name, which has to come next. -/
def name (place : NamePlace) : Scan String := do
  match ← peek with
  | .ident n =>
    skip
    return n
  | t => throw (.expectedName place t)

/-- A statement ends where it ends, or after one semicolon. -/
def ended (s : Stmt) : Scan Stmt := do
  if (← peek) = .sign .semicolon then
    skip
    return s
  else
    return s

/-- The names of a parameter list after its opening parenthesis, one at least. -/
def names : (limit : Nat) → List String → Scan (List String)
  | 0, _ => stuck
  | n + 1, acc => do
    let x ← name .inParameters
    if (← peek) = .sign .comma then
      skip
      names n (x :: acc)
    else
      expect .closeParen
      return (x :: acc).reverse

/-- A parameter list after its opening parenthesis. -/
def parameters (limit : Nat) : Scan (List String) := do
  if (← peek) = .sign .closeParen then
    skip
    return []
  else
    names limit []

mutual

/-- An expression whose operators all bind tighter than `power`. -/
def expression : (limit : Nat) → (power : Nat) → Scan Expr
  | 0, _ => stuck
  | n + 1, power => do
    let left ← operand n
    climb n power left
termination_by structural n => n

/-- Goes on from an expression as long as a sign follows that binds tighter than `power`. -/
def climb : (limit : Nat) → (power : Nat) → (left : Expr) → Scan Expr
  | 0, _, _ => stuck
  | n + 1, power, left => do
    match ← peek with
    | .sign s =>
      if s.power ≤ power then return left
      else
        skip
        match s with
        | .openParen =>
          let args ← list n .closeParen
          climb n power (.call left args)
        | .openBracket =>
          let index ← expression n 0
          expect .closeBracket
          climb n power (.index left index)
        | s =>
          let right ← expression n s.power
          climb n power (.binary s.text left right)
    | _ => return left
termination_by structural n => n

/-- What an expression starts with. -/
def operand : (limit : Nat) → Scan Expr
  | 0 => stuck
  | n + 1 => do
    let t ← peek
    match t.atom?, t with
    | some e, _ =>
      skip
      return e
    | none, .eof => throw .endForExpression
    | none, .sign .openParen =>
      skip
      let inner ← expression n 0
      expect .closeParen
      return inner
    | none, .sign .openBracket =>
      skip
      let items ← list n .closeBracket
      return .array items
    | none, .sign .openBrace =>
      skip
      let ps ← pairs n []
      return .hash ps
    | none, .sign s =>
      if s.isUnary then
        skip
        let right ← expression n Sign.unaryPower
        return .unary s.text right
      else throw (.noExpression (.sign s))
    | none, .keyword .ifWord =>
      skip
      conditional n
    | none, .keyword .fnWord =>
      skip
      function n
    | none, t => throw (.noExpression t)
termination_by structural n => n

/-- A conditional after its first word. -/
def conditional : (limit : Nat) → Scan Expr
  | 0 => stuck
  | n + 1 => do
    expect .openParen
    let condition ← expression n 0
    expect .closeParen
    let yes ← block n
    if (← peek) = .keyword .elseWord then
      skip
      let no ← block n
      return .cond condition yes (some no)
    else
      return .cond condition yes none
termination_by structural n => n

/-- A function after its first word. -/
def function : (limit : Nat) → Scan Expr
  | 0 => stuck
  | n + 1 => do
    expect .openParen
    let names ← parameters n
    let body ← block n
    return .function none names body
termination_by structural n => n

/-- Expressions between commas up to and including the sign `close`, after the opening one. -/
def list : (limit : Nat) → (close : Sign) → Scan (List Expr)
  | 0, _ => stuck
  | n + 1, close => do
    if (← peek) = .sign close then
      skip
      return []
    else
      items n close []
termination_by structural n => n

/-- The items of a list, one at least. -/
def items : (limit : Nat) → (close : Sign) → List Expr → Scan (List Expr)
  | 0, _, _ => stuck
  | n + 1, close, acc => do
    let e ← expression n 0
    if (← peek) = .sign .comma then
      skip
      items n close (e :: acc)
    else
      expect close
      return (e :: acc).reverse
termination_by structural n => n

/-- The pairs of a hash up to and including its closing brace. -/
def pairs : (limit : Nat) → List (Expr × Expr) → Scan (List (Expr × Expr))
  | 0, _ => stuck
  | n + 1, acc => do
    if (← peek) = .sign .closeBrace then
      skip
      return acc.reverse
    else
      let key ← expression n 0
      expect .colon
      let value ← expression n 0
      if (← peek) = .sign .closeBrace then
        pairs n ((key, value) :: acc)
      else
        expect .comma
        pairs n ((key, value) :: acc)
termination_by structural n => n

/-- Statements between braces. -/
def block : (limit : Nat) → Scan (List Stmt)
  | 0 => stuck
  | n + 1 => do
    expect .openBrace
    body n []
termination_by structural n => n

/-- The statements of a block up to and including its closing brace. -/
def body : (limit : Nat) → List Stmt → Scan (List Stmt)
  | 0, _ => stuck
  | n + 1, acc => do
    match ← peek with
    | .eof => throw .endInBlock
    | .sign .closeBrace =>
      skip
      return acc.reverse
    | .sign .semicolon =>
      skip
      body n acc
    | _ =>
      let s ← statement n
      body n (s :: acc)
termination_by structural n => n

/-- A statement and the semicolon that may end it. -/
def statement : (limit : Nat) → Scan Stmt
  | 0 => stuck
  | n + 1 => do
    match ← peek with
    | .keyword .letWord =>
      skip
      let x ← name .afterLet
      expect .assign
      let value ← expression n 0
      ended (.define x (value.named x))
    | .keyword .returnWord =>
      skip
      let value ← expression n 0
      ended (.ret value)
    | _ =>
      let e ← expression n 0
      if (← peek) = .sign .assign then
        skip
        let value ← expression n 0
        ended (.assign e (e.assignedTo value))
      else
        ended (.expr e)
termination_by structural n => n

end

/-- The statements up to the end of the text, which is not passed. -/
def statements : (limit : Nat) → List Stmt → Scan Program
  | 0, _ => stuck
  | n + 1, acc => do
    match ← peek with
    | .eof => return acc.reverse
    | .sign .semicolon =>
      skip
      statements n acc
    | _ =>
      let s ← statement n
      statements n (s :: acc)

/-! ## It does what the parser does -/

/-- An outcome, told of what is ahead. -/
def told : Except ParseFault α × Tape → EStateM.Result ParseFault Cursor α
  | (.ok a, t) => .ok a t.cursor
  | (.error e, t) => .error e t.cursor

/-- From `t` the scan ends, as the reader does from what is ahead, and has passed tokens of the list
only, none of which marks the end. -/
def Keeps (t : Tape) (s : Scan α) (r : Reader α) : Prop :=
  ∃ out, s t = some out ∧ told out = r t.cursor ∧ t.Leads out.2

namespace Keeps

variable {t : Tape}

protected lemma pure (a : α) : Keeps t (pure a) (pure a) :=
  ⟨(.ok a, t), rfl, rfl, .refl t⟩

protected lemma throw (e : ParseFault) : Keeps t (throw e : Scan α) (throw e) :=
  ⟨(.error e, t), rfl, rfl, .refl t⟩

protected lemma bind {s : Scan α} {r : Reader α} {f : α → Scan β} {k : α → Reader β}
    (h : Keeps t s r) (hf : ∀ a t', r t.cursor = .ok a t'.cursor → Keeps t' (f a) (k a)) :
    Keeps t (s >>= f) (r >>= k) := by
  obtain ⟨⟨res, t'⟩, hs, hr, hleads⟩ := h
  have hbind : (s >>= f) t = ExceptT.bindCont f res t' := by
    change (s t).bind (fun p => ExceptT.bindCont f p.1 p.2) = _
    rw [hs]
    rfl
  have hread : (r >>= k) t.cursor = EStateM.bind r k t.cursor := rfl
  rw [EStateM.bind, ← hr] at hread
  cases res with
  | ok a =>
      obtain ⟨out, hs', hr', hleads'⟩ := hf a t' hr.symm
      exact ⟨out, hbind.trans hs', hr'.trans hread.symm, hleads.trans hleads'⟩
  | error e => exact ⟨(.error e, t'), hbind, hread.symm, hleads⟩

/-- To look at the next token is the same on both sides. -/
lemma look {f : Token → Scan α} {k : Token → Reader α}
    (h : ∀ tok, t.peek = tok → Keeps t (f tok) (k tok)) :
    Keeps t (peek >>= f) (Reader.peek >>= k) := by
  obtain ⟨out, hs, hr, hleads⟩ := h t.peek rfl
  refine ⟨out, hs, ?_, hleads⟩
  rw [Reader.peek_bind, t.peek_cursor]
  exact hr

/-- A token that does not mark the end is passed, and then comes the rest. -/
lemma pass {s : Scan α} {r : Reader α} (hne : t.peek ≠ .eof) (h : Keeps t.advance s r) :
    Keeps t (skip >>= fun _ => s) (Reader.skip >>= fun _ => r) := by
  obtain ⟨out, hs, hr, hleads⟩ := h
  refine ⟨out, hs, ?_, (Tape.Leads.advance hne).trans hleads⟩
  rw [Reader.skip_bind, ← t.cursor_advance]
  exact hr

protected lemma skip (hne : t.peek ≠ .eof) : Keeps t skip Reader.skip :=
  ⟨(.ok (), t.advance), rfl, congrArg _ t.cursor_advance, .advance hne⟩

/-- Only what the reader does from here matters. -/
lemma congr {s : Scan α} {r r' : Reader α} (h : r t.cursor = r' t.cursor) (hr : Keeps t s r') :
    Keeps t s r := by
  rw [Keeps, h]
  exact hr

end Keeps

/-- A token that does not mark the end is one fewer afterwards. -/
lemma left_advance_lt {t : Tape} (h : t.peek ≠ .eof) : t.advance.cursor.left < t.cursor.left := by
  rw [t.cursor_advance]
  exact Cursor.left_next_lt (by rwa [t.peek_cursor])

/-- A sign that is expected is passed only if it is there, so it does not mark the end. -/
lemma expect_keeps (s : Sign) (t : Tape) : Keeps t (expect s) (Reader.expect s) := by
  rw [Reader.expect_eq]
  refine .look fun tok ht => ?_
  split
  · next hs => exact .skip (by simp [ht, hs])
  · exact .throw _

/-- The same holds of a name. -/
lemma name_keeps (place : NamePlace) (t : Tape) : Keeps t (name place) (Reader.name place) := by
  rw [Reader.name_eq]
  refine .look fun tok ht => ?_
  cases tok with
  | ident n => exact .pass (by simp [ht]) (.pure n)
  | _ => exact .throw _

lemma ended_keeps (s : Stmt) (t : Tape) : Keeps t (ended s) (Reader.ended s) := by
  rw [Reader.ended_eq]
  refine .look fun tok ht => ?_
  split
  · next hs => exact .pass (by simp [ht, hs]) (.pure s)
  · exact .pure s

/-- Each name takes a token, and one unit of the limit. -/
lemma names_keeps (n : Nat) (acc : List String) (t : Tape) (h : 4 * t.cursor.left < n) :
    Keeps t (names n acc) (Reader.names acc) := by
  induction n generalizing acc t with
  | zero => exact absurd h (Nat.not_lt_zero _)
  | succ n ih =>
      refine .congr (Reader.names_eq acc _ _ _)
        ((name_keeps _ t).bind fun x t₁ h₁ => .look fun tok ht => ?_)
      have := Reader.left_lt_of_outcome h₁
      split
      · next hs =>
          have := left_advance_lt (t := t₁) (by simp [ht, hs])
          exact .pass (by simp [ht, hs]) (ih _ _ (by omega))
      · exact (expect_keeps _ t₁).bind fun _ _ _ => .pure _

lemma parameters_keeps (n : Nat) (t : Tape) (h : 4 * t.cursor.left < n) :
    Keeps t (parameters n) Reader.parameters := by
  rw [Reader.parameters_eq]
  refine .look fun tok ht => ?_
  split
  · next hs => exact .pass (by simp [ht, hs]) (.pure _)
  · exact names_keeps n [] t h

mutual

/-- An expression takes one unit more than its operand. -/
lemma expression_keeps (n power : Nat) (t : Tape) (h : 4 * t.cursor.left + 1 < n) :
    Keeps t (expression n power) (Reader.expression power) := by
  obtain ⟨n, rfl⟩ : ∃ k, n = k + 1 := ⟨n - 1, by omega⟩
  rw [expression, Reader.expression_eq]
  refine (operand_keeps n t (by omega)).bind fun left t₁ h₁ => ?_
  have := Reader.left_lt_of_outcome h₁
  exact climb_keeps n power left t₁ (by omega)
termination_by n
decreasing_by all_goals omega

/-- The climb takes a token for each sign that it passes. -/
lemma climb_keeps (n power : Nat) (left : Expr) (t : Tape) (h : 4 * t.cursor.left < n) :
    Keeps t (climb n power left) (Reader.climb power left) := by
  obtain ⟨n, rfl⟩ : ∃ k, n = k + 1 := ⟨n - 1, by omega⟩
  rw [climb]
  refine .congr (Reader.climb_eq power left _ _ _) (.look fun tok ht => ?_)
  cases tok with
  | sign s =>
      have hne : t.peek ≠ .eof := by simp [ht]
      have := left_advance_lt hne
      rw [Reader.climbAt]
      by_cases hs : s.power ≤ power
      · simp only [if_pos hs]
        exact .pure left
      · simp only [if_neg hs]
        refine .pass hne ?_
        cases s with
        | openParen =>
            refine (list_keeps n .closeParen t.advance (by omega)).bind fun args t₁ h₁ => ?_
            have := Reader.left_lt_of_outcome h₁
            exact climb_keeps n power _ t₁ (by omega)
        | openBracket =>
            refine (expression_keeps n 0 t.advance (by omega)).bind fun index t₁ h₁ =>
              (expect_keeps _ t₁).bind fun _ t₂ h₂ => ?_
            have := Reader.left_lt_of_outcome h₁
            have := Reader.left_lt_of_outcome h₂
            exact climb_keeps n power _ t₂ (by omega)
        | _ =>
            refine (expression_keeps n _ t.advance (by omega)).bind fun right t₁ h₁ => ?_
            have := Reader.left_lt_of_outcome h₁
            exact climb_keeps n power _ t₁ (by omega)
  | _ => exact .pure left
termination_by n
decreasing_by all_goals omega

/-- An operand passes its first token before anything nested in it is read. -/
lemma operand_keeps (n : Nat) (t : Tape) (h : 4 * t.cursor.left < n) :
    Keeps t (operand n) Reader.operand := by
  obtain ⟨n, rfl⟩ : ∃ k, n = k + 1 := ⟨n - 1, by omega⟩
  rw [operand, Reader.operand_eq]
  refine .look fun tok ht => ?_
  cases tok with
  | sign s =>
      have hne : t.peek ≠ .eof := by simp [ht]
      have := left_advance_lt hne
      cases s with
      | openParen =>
          exact .pass hne ((expression_keeps n 0 t.advance (by omega)).bind fun _ t₁ _ =>
            (expect_keeps _ t₁).bind fun _ _ _ => .pure _)
      | openBracket =>
          exact .pass hne ((list_keeps n _ t.advance (by omega)).bind fun _ _ _ => .pure _)
      | openBrace =>
          exact .pass hne ((pairs_keeps n [] t.advance (by omega)).bind fun _ _ _ => .pure _)
      | bang =>
          exact .pass hne ((expression_keeps n _ t.advance (by omega)).bind fun _ _ _ => .pure _)
      | minus =>
          exact .pass hne ((expression_keeps n _ t.advance (by omega)).bind fun _ _ _ => .pure _)
      | _ => exact .throw _
  | keyword k =>
      have hne : t.peek ≠ .eof := by simp [ht]
      have := left_advance_lt hne
      cases k with
      | ifWord => exact .pass hne (conditional_keeps n t.advance (by omega))
      | fnWord => exact .pass hne (function_keeps n t.advance (by omega))
      | trueWord => exact .pass hne (.pure _)
      | falseWord => exact .pass hne (.pure _)
      | nilWord => exact .pass hne (.pure _)
      | _ => exact .throw _
  | ident x => exact .pass (by simp [ht]) (.pure _)
  | integer x => exact .pass (by simp [ht]) (.pure _)
  | float x => exact .pass (by simp [ht]) (.pure _)
  | string x => exact .pass (by simp [ht]) (.pure _)
  | _ => exact .throw _
termination_by n
decreasing_by all_goals omega

/-- A conditional has already passed its word, which makes up for what its condition takes. -/
lemma conditional_keeps (n : Nat) (t : Tape) (h : 4 * t.cursor.left + 3 < n) :
    Keeps t (conditional n) Reader.conditional := by
  obtain ⟨n, rfl⟩ : ∃ k, n = k + 1 := ⟨n - 1, by omega⟩
  rw [conditional, Reader.conditional_eq]
  refine (expect_keeps _ t).bind fun _ t₁ h₁ => ?_
  have := Reader.left_lt_of_outcome h₁
  refine (expression_keeps n 0 t₁ (by omega)).bind fun condition t₂ h₂ =>
    (expect_keeps _ t₂).bind fun _ t₃ h₃ => ?_
  have := Reader.left_lt_of_outcome h₂
  have := Reader.left_lt_of_outcome h₃
  refine (block_keeps n t₃ (by omega)).bind fun yes t₄ h₄ => .look fun tok ht => ?_
  have := Reader.left_lt_of_outcome h₄
  split
  · next hs =>
      have hne : t₄.peek ≠ .eof := by simp [ht, hs]
      have := left_advance_lt hne
      exact .pass hne ((block_keeps n t₄.advance (by omega)).bind fun _ _ _ => .pure _)
  · exact .pure _
termination_by n
decreasing_by all_goals omega

/-- A function has already passed its word. -/
lemma function_keeps (n : Nat) (t : Tape) (h : 4 * t.cursor.left + 3 < n) :
    Keeps t (function n) Reader.function := by
  obtain ⟨n, rfl⟩ : ∃ k, n = k + 1 := ⟨n - 1, by omega⟩
  rw [function, Reader.function_eq]
  refine (expect_keeps _ t).bind fun _ t₁ h₁ => ?_
  have := Reader.left_lt_of_outcome h₁
  refine (parameters_keeps n t₁ (by omega)).bind fun _ t₂ h₂ => ?_
  have := Reader.left_lt_of_outcome h₂
  exact (block_keeps n t₂ (by omega)).bind fun _ _ _ => .pure _
termination_by n
decreasing_by all_goals omega

/-- A list takes one unit more than its items. -/
lemma list_keeps (n : Nat) (close : Sign) (t : Tape) (h : 4 * t.cursor.left + 3 < n) :
    Keeps t (list n close) (Reader.list close) := by
  obtain ⟨n, rfl⟩ : ∃ k, n = k + 1 := ⟨n - 1, by omega⟩
  rw [list, Reader.list_eq]
  refine .look fun tok ht => ?_
  split
  · next hs => exact .pass (by simp [ht, hs]) (.pure _)
  · exact items_keeps n close [] t (by omega)
termination_by n
decreasing_by all_goals omega

/-- An item takes one unit more than an expression. -/
lemma items_keeps (n : Nat) (close : Sign) (acc : List Expr) (t : Tape)
    (h : 4 * t.cursor.left + 2 < n) :
    Keeps t (items n close acc) (Reader.items close acc) := by
  obtain ⟨n, rfl⟩ : ∃ k, n = k + 1 := ⟨n - 1, by omega⟩
  rw [items]
  refine .congr (Reader.items_eq close acc _ _ _) ?_
  refine (expression_keeps n 0 t (by omega)).bind fun e t₁ h₁ => .look fun tok ht => ?_
  have := Reader.left_lt_of_outcome h₁
  split
  · next hs =>
      have hne : t₁.peek ≠ .eof := by simp [ht, hs]
      have := left_advance_lt hne
      exact .pass hne (items_keeps n close (e :: acc) t₁.advance (by omega))
  · exact (expect_keeps _ t₁).bind fun _ _ _ => .pure _
termination_by n
decreasing_by all_goals omega

/-- A pair takes as much, and passes a token between its parts. -/
lemma pairs_keeps (n : Nat) (acc : List (Expr × Expr)) (t : Tape) (h : 4 * t.cursor.left + 2 < n) :
    Keeps t (pairs n acc) (Reader.pairs acc) := by
  obtain ⟨n, rfl⟩ : ∃ k, n = k + 1 := ⟨n - 1, by omega⟩
  rw [pairs]
  refine .congr (Reader.pairs_eq acc _ _ _) (.look fun tok ht => ?_)
  split
  · next hs => exact .pass (by simp [ht, hs]) (.pure _)
  refine (expression_keeps n 0 t (by omega)).bind fun key t₁ h₁ =>
    (expect_keeps _ t₁).bind fun _ t₂ h₂ => ?_
  have := Reader.left_lt_of_outcome h₁
  have := Reader.left_lt_of_outcome h₂
  refine (expression_keeps n 0 t₂ (by omega)).bind fun value t₃ h₃ => .look fun _ _ => ?_
  have := Reader.left_lt_of_outcome h₃
  split
  · exact pairs_keeps n _ t₃ (by omega)
  · refine (expect_keeps _ t₃).bind fun _ t₄ h₄ => ?_
    have := Reader.left_lt_of_outcome h₄
    exact pairs_keeps n _ t₄ (by omega)
termination_by n
decreasing_by all_goals omega

/-- A block passes its brace before its statements. -/
lemma block_keeps (n : Nat) (t : Tape) (h : 4 * t.cursor.left < n) :
    Keeps t (block n) Reader.block := by
  obtain ⟨n, rfl⟩ : ∃ k, n = k + 1 := ⟨n - 1, by omega⟩
  rw [block, Reader.block_eq]
  refine (expect_keeps _ t).bind fun _ t₁ h₁ => ?_
  have := Reader.left_lt_of_outcome h₁
  exact body_keeps n [] t₁ (by omega)
termination_by n
decreasing_by all_goals omega

/-- A statement in a block passes a token at least. -/
lemma body_keeps (n : Nat) (acc : List Stmt) (t : Tape) (h : 4 * t.cursor.left + 3 < n) :
    Keeps t (body n acc) (Reader.body acc) := by
  obtain ⟨n, rfl⟩ : ∃ k, n = k + 1 := ⟨n - 1, by omega⟩
  rw [body]
  refine .congr (Reader.body_eq acc _ _ _) (.look fun tok ht => ?_)
  have one : Keeps t (statement n >>= fun s => body n (s :: acc))
      (Reader.statement >>= fun s => Reader.body (s :: acc)) := by
    refine (statement_keeps n t (by omega)).bind fun s t₁ h₁ => ?_
    have := Reader.left_lt_of_outcome h₁
    exact body_keeps n (s :: acc) t₁ (by omega)
  cases tok with
  | eof => exact .throw _
  | sign s =>
      have hne : t.peek ≠ .eof := by simp [ht]
      have := left_advance_lt hne
      cases s with
      | closeBrace => exact .pass hne (.pure _)
      | semicolon => exact .pass hne (body_keeps n acc t.advance (by omega))
      | _ => exact one
  | _ => exact one
termination_by n
decreasing_by all_goals omega

/-- A statement takes one unit more than an expression. -/
lemma statement_keeps (n : Nat) (t : Tape) (h : 4 * t.cursor.left + 2 < n) :
    Keeps t (statement n) Reader.statement := by
  obtain ⟨n, rfl⟩ : ∃ k, n = k + 1 := ⟨n - 1, by omega⟩
  rw [statement, Reader.statement_eq]
  have plain : Keeps t (do
      let e ← expression n 0
      if (← peek) = .sign .assign then
        skip
        let value ← expression n 0
        ended (.assign e (e.assignedTo value))
      else
        ended (.expr e)) (Reader.statementAt .eof) := by
    refine (expression_keeps n 0 t (by omega)).bind fun e t₁ h₁ => .look fun tok ht => ?_
    have := Reader.left_lt_of_outcome h₁
    split
    · next hs =>
        have hne : t₁.peek ≠ .eof := by simp [ht, hs]
        have := left_advance_lt hne
        exact .pass hne ((expression_keeps n 0 t₁.advance (by omega)).bind fun _ t₂ _ =>
          ended_keeps _ t₂)
    · exact ended_keeps _ t₁
  refine .look fun tok ht => ?_
  cases tok with
  | keyword k =>
      have hne : t.peek ≠ .eof := by simp [ht]
      have := left_advance_lt hne
      cases k with
      | letWord =>
          refine .pass hne ((name_keeps _ t.advance).bind fun x t₁ h₁ =>
            (expect_keeps _ t₁).bind fun _ t₂ h₂ => ?_)
          have := Reader.left_lt_of_outcome h₁
          have := Reader.left_lt_of_outcome h₂
          exact (expression_keeps n 0 t₂ (by omega)).bind fun _ t₃ _ => ended_keeps _ t₃
      | returnWord =>
          exact .pass hne ((expression_keeps n 0 t.advance (by omega)).bind fun _ t₁ _ =>
            ended_keeps _ t₁)
      | _ => exact plain
  | _ => exact plain
termination_by n
decreasing_by all_goals omega

end

/-- A program takes as much as a block, and stops before the end of the text. -/
lemma statements_keeps (n : Nat) (acc : List Stmt) (t : Tape) (h : 4 * t.cursor.left + 3 < n) :
    Keeps t (statements n acc) (Reader.statements acc) := by
  induction n generalizing acc t with
  | zero => exact absurd h (Nat.not_lt_zero _)
  | succ n ih =>
      refine .congr (Reader.statements_eq acc _ _ _) (.look fun tok ht => ?_)
      have one : Keeps t (statement n >>= fun s => statements n (s :: acc))
          (Reader.statement >>= fun s => Reader.statements (s :: acc)) := by
        refine (statement_keeps n t (by omega)).bind fun s t₁ h₁ => ?_
        have := Reader.left_lt_of_outcome h₁
        exact ih (s :: acc) t₁ (by omega)
      cases tok with
      | eof => exact .pure _
      | sign s =>
          have hne : t.peek ≠ .eof := by simp [ht]
          have := left_advance_lt hne
          cases s with
          | semicolon => exact .pass hne (ih acc t.advance (by omega))
          | _ => exact one
      | _ => exact one

end Scan

end Marmoset
