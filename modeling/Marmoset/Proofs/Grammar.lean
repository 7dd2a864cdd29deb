import Marmoset.Tree.Parser
import Mathlib.Tactic.Common

/-!
# The grammar

The parser is a set of functions that call each other, carry bounds along and build their results
from the back. What it accepts is a grammar.

* `Cursor.Passes` — a token comes next and is passed.
* `Phrase` — what can be read, with the tree that it makes; `Reads` has one constructor for each way
  to read a phrase, with the tokens that are looked at and not passed as side conditions.

The lemmas `Parser.reads_expression` to `Parser.reads_program`, one for each function, say that
whatever the parser comes to was read by the grammar.  What holds of all programs that were read
follows from these by induction on `Reads`, without another look at the parser.
-/

namespace Marmoset

/-! ## The next token -/

namespace Cursor

/-- The token `t` comes next, and `c'` is the place after it.  The end of the text cannot be
passed. -/
inductive Passes : Cursor → Token → Cursor → Prop where
  | token {t : Token} {pos last : Pos} {ls : List Lexeme} (h : t ≠ .eof) :
      Passes ⟨⟨t, pos⟩ :: ls, last⟩ t ⟨ls, pos⟩

/-- A look that shows a token shows one that is passed. -/
lemma look_eq_token {c rest : Cursor} {t : Token} {hr : rest.left < c.left}
    (h : c.look = .token t rest hr) :
    c.Passes t rest := by
  obtain ⟨ahead, last⟩ := c
  cases ahead with
  | nil => cases h
  | cons l ls =>
      simp only [look] at h
      split_ifs at h with he
      cases h
      exact .token he

/-- A look that shows none is at the end of the text. -/
lemma look_eq_stop {c : Cursor} (h : c.look = .stop) : c.peek = .eof := by
  obtain ⟨ahead, last⟩ := c
  cases ahead with
  | nil => rfl
  | cons l ls =>
      simp only [look] at h
      split_ifs at h with he
      exact he

/-- What is passed is what comes next. -/
lemma Passes.peek {c c' : Cursor} {t : Token} (h : c.Passes t c') : c.peek = t := by
  cases h
  rfl

lemma Passes.peek_ne_eof {c c' : Cursor} {t : Token} (h : c.Passes t c') : c.peek ≠ .eof := by
  cases h
  assumption

/-- What comes next is passed, if it is not the end of the text. -/
lemma passes_next {c : Cursor} {t : Token} (h : c.peek = t) (ht : t ≠ .eof) :
    c.Passes t c.next := by
  obtain ⟨ahead, last⟩ := c
  cases ahead with
  | nil => exact absurd h.symm ht
  | cons l ls =>
      cases h
      exact .token ht

/-- A token that is not seen ahead is not the next one. -/
lemma peek_ne {c : Cursor} {t : Token} (h : ∀ rest hr, c.look = .token t rest hr → False)
    (ht : t ≠ .eof) :
    c.peek ≠ t := by
  intro hp
  obtain ⟨ahead, last⟩ := c
  cases ahead with
  | nil => exact ht hp.symm
  | cons l ls =>
      cases hp
      exact h ⟨ls, l.pos⟩ (by simp [left]) (if_neg ht)

/-- A sign that was expected was passed. -/
lemma expect_eq_ok {c : Cursor} {s : Sign} {p : Parsed Unit c.left} (h : c.expect s = .ok p) :
    c.Passes (.sign s) p.rest := by
  simp only [expect] at h
  split_ifs at h with hs
  cases h
  exact passes_next hs (by simp)

/-- A name that was asked for was passed. -/
lemma name_eq_ok {c : Cursor} {place : NamePlace} {p : Parsed String c.left}
    (h : c.name place = .ok p) :
    c.Passes (.ident p.value) p.rest := by
  simp only [name] at h
  split at h
  · next hl =>
      cases h
      exact look_eq_token hl
  · cases h

end Cursor

/-! ## Phrases -/

/-- What is read, and the tree that is made of it. -/
inductive Phrase where
  /-- An expression whose operators all bind tighter than `power`. -/
  | expr (power : Nat) (e : Expr)
  /-- What follows `left` and makes `e` of it. -/
  | more (power : Nat) (left e : Expr)
  /-- What an expression starts with. -/
  | operand (e : Expr)
  /-- A list after its opening sign. -/
  | list (close : Sign) (es : List Expr)
  /-- The same with one item at least. -/
  | items (close : Sign) (es : List Expr)
  | pairs (ps : List (Expr × Expr))
  /-- A parameter list after its opening parenthesis. -/
  | parameters (ns : List String)
  | names (ns : List String)
  | block (ss : List Stmt)
  /-- Statements after an opening brace. -/
  | body (ss : List Stmt)
  | stmt (s : Stmt)
  | program (ss : List Stmt)

/-- `Reads φ c c'`: from `c` on the tokens make up the phrase `φ`, which ends at `c'`. -/
inductive Reads : Phrase → Cursor → Cursor → Prop where
  | expr {power : Nat} {left e : Expr} {c c₁ c₂ : Cursor} :
      Reads (.operand left) c c₁ → Reads (.more power left e) c₁ c₂ → Reads (.expr power e) c c₂
  -- behind an expression
  | stop {power : Nat} {e : Expr} {c : Cursor} :
      (∀ s, c.peek = .sign s → s.power ≤ power) → Reads (.more power e e) c c
  | call {power : Nat} {left e : Expr} {args : List Expr} {c c₁ c₂ c₃ : Cursor} :
      power < Sign.openParen.power → c.Passes (.sign .openParen) c₁ →
        Reads (.list .closeParen args) c₁ c₂ →
      Reads (.more power (.call left args) e) c₂ c₃ → Reads (.more power left e) c c₃
  | index {power : Nat} {left index e : Expr} {c c₁ c₂ c₃ c₄ : Cursor} :
      power < Sign.openBracket.power → c.Passes (.sign .openBracket) c₁ →
        Reads (.expr 0 index) c₁ c₂ →
      c₂.Passes (.sign .closeBracket) c₃ → Reads (.more power (.index left index) e) c₃ c₄ →
      Reads (.more power left e) c c₄
  | binary {power : Nat} {s : Sign} {left right e : Expr} {c c₁ c₂ c₃ : Cursor} :
      power < s.power → s ≠ .openParen → s ≠ .openBracket → c.Passes (.sign s) c₁ →
      Reads (.expr s.power right) c₁ c₂ → Reads (.more power (.binary s.text left right) e) c₂ c₃ →
      Reads (.more power left e) c c₃
  -- what an expression starts with
  | atom {t : Token} {e : Expr} {c c₁ : Cursor} :
      t.atom? = some e → c.Passes t c₁ → Reads (.operand e) c c₁
  | paren {e : Expr} {c c₁ c₂ c₃ : Cursor} :
      c.Passes (.sign .openParen) c₁ → Reads (.expr 0 e) c₁ c₂ → c₂.Passes (.sign .closeParen) c₃ →
      Reads (.operand e) c c₃
  | array {es : List Expr} {c c₁ c₂ : Cursor} :
      c.Passes (.sign .openBracket) c₁ → Reads (.list .closeBracket es) c₁ c₂ →
        Reads (.operand (.array es)) c c₂
  | hash {ps : List (Expr × Expr)} {c c₁ c₂ : Cursor} :
      c.Passes (.sign .openBrace) c₁ → Reads (.pairs ps) c₁ c₂ → Reads (.operand (.hash ps)) c c₂
  | unary {s : Sign} {e : Expr} {c c₁ c₂ : Cursor} :
      s.isUnary = true → c.Passes (.sign s) c₁ → Reads (.expr Sign.unaryPower e) c₁ c₂ →
      Reads (.operand (.unary s.text e)) c c₂
  | cond {condition : Expr} {yes : List Stmt} {c c₁ c₂ c₃ c₄ c₅ : Cursor} :
      c.Passes (.keyword .ifWord) c₁ → c₁.Passes (.sign .openParen) c₂ →
        Reads (.expr 0 condition) c₂ c₃ →
      c₃.Passes (.sign .closeParen) c₄ → Reads (.block yes) c₄ c₅ → c₅.peek ≠ .keyword .elseWord →
      Reads (.operand (.cond condition yes none)) c c₅
  | condElse {condition : Expr} {yes no : List Stmt} {c c₁ c₂ c₃ c₄ c₅ c₆ c₇ : Cursor} :
      c.Passes (.keyword .ifWord) c₁ → c₁.Passes (.sign .openParen) c₂ →
        Reads (.expr 0 condition) c₂ c₃ →
      c₃.Passes (.sign .closeParen) c₄ → Reads (.block yes) c₄ c₅ →
      c₅.Passes (.keyword .elseWord) c₆ →
      Reads (.block no) c₆ c₇ → Reads (.operand (.cond condition yes (some no))) c c₇
  | function {ns : List String} {body : List Stmt} {c c₁ c₂ c₃ c₄ : Cursor} :
      c.Passes (.keyword .fnWord) c₁ → c₁.Passes (.sign .openParen) c₂ →
        Reads (.parameters ns) c₂ c₃ →
      Reads (.block body) c₃ c₄ → Reads (.operand (.function none ns body)) c c₄
  -- lists
  | noItems {close : Sign} {c c₁ : Cursor} : c.Passes (.sign close) c₁ → Reads (.list close []) c c₁
  | someItems {close : Sign} {es : List Expr} {c c₁ : Cursor} :
      c.peek ≠ .sign close → Reads (.items close es) c c₁ → Reads (.list close es) c c₁
  | lastItem {close : Sign} {e : Expr} {c c₁ c₂ : Cursor} :
      Reads (.expr 0 e) c c₁ → c₁.peek ≠ .sign .comma → c₁.Passes (.sign close) c₂ →
      Reads (.items close [e]) c c₂
  | nextItem {close : Sign} {e : Expr} {es : List Expr} {c c₁ c₂ c₃ : Cursor} :
      Reads (.expr 0 e) c c₁ → c₁.Passes (.sign .comma) c₂ → Reads (.items close es) c₂ c₃ →
      Reads (.items close (e :: es)) c c₃
  | noPairs {c c₁ : Cursor} : c.Passes (.sign .closeBrace) c₁ → Reads (.pairs []) c c₁
  | lastPair {key value : Expr} {c c₁ c₂ c₃ c₄ : Cursor} :
      c.peek ≠ .sign .closeBrace → Reads (.expr 0 key) c c₁ → c₁.Passes (.sign .colon) c₂ →
      Reads (.expr 0 value) c₂ c₃ → c₃.Passes (.sign .closeBrace) c₄ →
      Reads (.pairs [(key, value)]) c c₄
  | nextPair {key value : Expr} {ps : List (Expr × Expr)} {c c₁ c₂ c₃ c₄ c₅ : Cursor} :
      c.peek ≠ .sign .closeBrace → Reads (.expr 0 key) c c₁ → c₁.Passes (.sign .colon) c₂ →
      Reads (.expr 0 value) c₂ c₃ → c₃.Passes (.sign .comma) c₄ → Reads (.pairs ps) c₄ c₅ →
      Reads (.pairs ((key, value) :: ps)) c c₅
  | noNames {c c₁ : Cursor} : c.Passes (.sign .closeParen) c₁ → Reads (.parameters []) c c₁
  | someNames {ns : List String} {c c₁ : Cursor} :
      c.peek ≠ .sign .closeParen → Reads (.names ns) c c₁ → Reads (.parameters ns) c c₁
  | lastName {n : String} {c c₁ c₂ : Cursor} :
      c.Passes (.ident n) c₁ → c₁.Passes (.sign .closeParen) c₂ → Reads (.names [n]) c c₂
  | nextName {n : String} {ns : List String} {c c₁ c₂ c₃ : Cursor} :
      c.Passes (.ident n) c₁ → c₁.Passes (.sign .comma) c₂ → Reads (.names ns) c₂ c₃ →
      Reads (.names (n :: ns)) c c₃
  -- statements
  | block {ss : List Stmt} {c c₁ c₂ : Cursor} :
      c.Passes (.sign .openBrace) c₁ → Reads (.body ss) c₁ c₂ → Reads (.block ss) c c₂
  | endBody {c c₁ : Cursor} : c.Passes (.sign .closeBrace) c₁ → Reads (.body []) c c₁
  | skipInBody {ss : List Stmt} {c c₁ c₂ : Cursor} :
      c.Passes (.sign .semicolon) c₁ → Reads (.body ss) c₁ c₂ → Reads (.body ss) c c₂
  | stmtInBody {s : Stmt} {ss : List Stmt} {c c₁ c₂ : Cursor} :
      c.peek ≠ .eof → c.peek ≠ .sign .closeBrace → c.peek ≠ .sign .semicolon →
        Reads (.stmt s) c c₁ →
      Reads (.body ss) c₁ c₂ → Reads (.body (s :: ss)) c c₂
  | define {n : String} {value : Expr} {c c₁ c₂ c₃ c₄ : Cursor} :
      c.Passes (.keyword .letWord) c₁ → c₁.Passes (.ident n) c₂ → c₂.Passes (.sign .assign) c₃ →
      Reads (.expr 0 value) c₃ c₄ → Reads (.stmt (.define n (value.named n))) c c₄.skipSemicolon
  | ret {value : Expr} {c c₁ c₂ : Cursor} :
      c.Passes (.keyword .returnWord) c₁ → Reads (.expr 0 value) c₁ c₂ →
      Reads (.stmt (.ret value)) c c₂.skipSemicolon
  | assign {target value : Expr} {c c₁ c₂ c₃ : Cursor} :
      c.peek ≠ .keyword .letWord → c.peek ≠ .keyword .returnWord → Reads (.expr 0 target) c c₁ →
      c₁.Passes (.sign .assign) c₂ → Reads (.expr 0 value) c₂ c₃ →
      Reads (.stmt (.assign target (target.assignedTo value))) c c₃.skipSemicolon
  | exprStmt {e : Expr} {c c₁ : Cursor} :
      c.peek ≠ .keyword .letWord → c.peek ≠ .keyword .returnWord → Reads (.expr 0 e) c c₁ →
      c₁.peek ≠ .sign .assign → Reads (.stmt (.expr e)) c c₁.skipSemicolon
  | endProgram {c : Cursor} : c.peek = .eof → Reads (.program []) c c
  | skipInProgram {ss : List Stmt} {c c₁ c₂ : Cursor} :
      c.Passes (.sign .semicolon) c₁ → Reads (.program ss) c₁ c₂ → Reads (.program ss) c c₂
  | stmtInProgram {s : Stmt} {ss : List Stmt} {c c₁ c₂ : Cursor} :
      c.peek ≠ .eof → c.peek ≠ .sign .semicolon → Reads (.stmt s) c c₁ → Reads (.program ss) c₁ c₂ →
      Reads (.program (s :: ss)) c c₂

namespace Parser

open Cursor

/-! ## The parser reads by the grammar -/

/-- Of two steps that succeed the first one does. -/
lemma bind_eq_ok {ε α β : Type} {x : Except ε α} {f : α → Except ε β} {b : β}
    (h : (x >>= f) = .ok b) :
    ∃ a, x = .ok a ∧ f a = .ok b := by
  cases x with
  | error e => cases h
  | ok a => exact ⟨a, rfl, h⟩

/-- The item read last comes before what follows. -/
lemma reverse_cons_append {α : Type} (x : α) (xs ys : List α) :
    (x :: xs).reverse ++ ys = xs.reverse ++ x :: ys := by
  rw [List.reverse_cons, List.append_assoc, List.singleton_append]

/-- Names that were read come behind those from before. -/
lemma reads_names {acc : List String} {bound : Nat} {c : Cursor} {h : c.left ≤ bound}
    {p : Parsed (List String) bound} (hp : names acc bound c h = .ok p) :
    ∃ ns, p.value = acc.reverse ++ ns ∧ Reads (.names ns) c p.rest := by
  rw [names] at hp
  obtain ⟨⟨n, c₁, h₁⟩, hn, hp⟩ := bind_eq_ok hp
  have hn := name_eq_ok hn
  simp only at hp hn
  split_ifs at hp with hc
  · have := c₁.left_next_le
    obtain ⟨ns, hv, hr⟩ := reads_names hp
    refine ⟨n :: ns, ?_, .nextName hn (passes_next hc (by simp)) hr⟩
    rw [hv, reverse_cons_append]
  · obtain ⟨⟨_, c₂, h₂⟩, he, hp⟩ := bind_eq_ok hp
    cases hp
    exact ⟨[n], List.reverse_cons, .lastName hn (expect_eq_ok he)⟩
termination_by c.left
decreasing_by all_goals omega

lemma reads_parameters {c : Cursor} {p : Parsed (List String) c.left} (hp : parameters c = .ok p) :
    Reads (.parameters p.value) c p.rest := by
  simp only [parameters] at hp
  split_ifs at hp with hc
  · cases hp
    exact .noNames (passes_next hc (by simp))
  · obtain ⟨ns, hv, hr⟩ := reads_names hp
    rw [hv]
    exact .someNames hc hr

-- The lemmas call each other as the functions do, and end for the same reason.
mutual

/-- An expression is read by its operand and what follows. -/
lemma reads_expression {power : Nat} {c : Cursor} {p : Parsed Expr c.left}
    (hp : expression power c = .ok p) :
    Reads (.expr power p.value) c p.rest := by
  rw [expression] at hp
  obtain ⟨⟨left, c₁, h₁⟩, ho, hp⟩ := bind_eq_ok hp
  exact .expr (reads_operand ho) (reads_climb hp)
termination_by 4 * c.left + 1
decreasing_by all_goals omega

/-- What follows an expression is read sign by sign. -/
lemma reads_climb {power : Nat} {left : Expr} {bound : Nat} {c : Cursor} {h : c.left < bound}
    {p : Parsed Expr bound} (hp : climb power left bound c h = .ok p) :
    Reads (.more power left p.value) c p.rest := by
  rw [climb] at hp
  split at hp
  · next s rest hr hl =>
      have hs := look_eq_token hl
      split_ifs at hp with hpow
      · cases hp
        refine .stop fun s' hs' => ?_
        rw [hs.peek] at hs'
        cases hs'
        exact hpow
      · have hpow := Nat.not_le.mp hpow
        split at hp
        · obtain ⟨⟨args, c₁, h₁⟩, ha, hp⟩ := bind_eq_ok hp
          exact .call hpow hs (reads_list ha) (reads_climb hp)
        · obtain ⟨⟨index, c₁, h₁⟩, hi, hp⟩ := bind_eq_ok hp
          obtain ⟨⟨_, c₂, h₂⟩, he, hp⟩ := bind_eq_ok hp
          exact .index hpow hs (reads_expression hi) (expect_eq_ok he) (reads_climb hp)
        · next s hparen hbracket =>
          obtain ⟨⟨right, c₁, h₁⟩, hr, hp⟩ := bind_eq_ok hp
          exact .binary hpow hparen hbracket hs (reads_expression hr) (reads_climb hp)
  · next hl =>
      cases hp
      exact .stop fun s hs => absurd hs (peek_ne (hl s) (by simp))
termination_by 4 * c.left
decreasing_by all_goals omega

/-- An operand is read by its first token. -/
lemma reads_operand {c : Cursor} {p : Parsed Expr c.left} (hp : operand c = .ok p) :
    Reads (.operand p.value) c p.rest := by
  rw [operand] at hp
  split at hp
  · cases hp
  · next t rest h hl =>
      have ht := look_eq_token hl
      split at hp
      · next e he =>
          cases hp
          exact .atom he ht
      · obtain ⟨⟨inner, c₁, h₁⟩, hi, hp⟩ := bind_eq_ok hp
        obtain ⟨⟨_, c₂, h₂⟩, he, hp⟩ := bind_eq_ok hp
        cases hp
        exact .paren ht (reads_expression hi) (expect_eq_ok he)
      · obtain ⟨⟨items, c₁, h₁⟩, hi, hp⟩ := bind_eq_ok hp
        cases hp
        exact .array ht (reads_list hi)
      · obtain ⟨⟨_, c₁, h₁⟩, hi, hp⟩ := bind_eq_ok hp
        cases hp
        obtain ⟨ps, rfl, hr⟩ := reads_pairs hi
        exact .hash ht hr
      · split_ifs at hp with hu
        obtain ⟨⟨right, c₁, h₁⟩, hr, hp⟩ := bind_eq_ok hp
        cases hp
        exact .unary hu ht (reads_expression hr)
      · obtain ⟨⟨e, c₁, h₁⟩, he, hp⟩ := bind_eq_ok hp
        cases hp
        have hr := reads_conditional ht he
        exact hr
      · obtain ⟨⟨e, c₁, h₁⟩, he, hp⟩ := bind_eq_ok hp
        cases hp
        have hr := reads_function ht he
        exact hr
      · cases hp
termination_by 4 * c.left
decreasing_by all_goals omega

/-- A conditional is an operand, with its first word. -/
lemma reads_conditional {c₀ c : Cursor} {p : Parsed Expr c.left}
    (h₀ : c₀.Passes (.keyword .ifWord) c) (hp : conditional c = .ok p) :
    Reads (.operand p.value) c₀ p.rest := by
  rw [conditional] at hp
  obtain ⟨⟨_, c₁, h₁⟩, ho, hp⟩ := bind_eq_ok hp
  obtain ⟨⟨condition, c₂, h₂⟩, hc, hp⟩ := bind_eq_ok hp
  obtain ⟨⟨_, c₃, h₃⟩, hcl, hp⟩ := bind_eq_ok hp
  obtain ⟨⟨yes, c₄, h₄⟩, hy, hp⟩ := bind_eq_ok hp
  simp only at hp
  split_ifs at hp with he
  · have := c₄.left_next_le
    obtain ⟨⟨no, c₅, h₅⟩, hn, hp⟩ := bind_eq_ok hp
    cases hp
    exact .condElse h₀ (expect_eq_ok ho) (reads_expression hc) (expect_eq_ok hcl) (reads_block hy)
      (passes_next he (by simp)) (reads_block hn)
  · cases hp
    exact .cond h₀ (expect_eq_ok ho) (reads_expression hc) (expect_eq_ok hcl) (reads_block hy) he
termination_by 4 * c.left + 3
decreasing_by all_goals omega

/-- A function is an operand, with its first word. -/
lemma reads_function {c₀ c : Cursor} {p : Parsed Expr c.left} (h₀ : c₀.Passes (.keyword .fnWord) c)
    (hp : function c = .ok p) : Reads (.operand p.value) c₀ p.rest := by
  rw [function] at hp
  obtain ⟨⟨_, c₁, h₁⟩, ho, hp⟩ := bind_eq_ok hp
  obtain ⟨⟨names, c₂, h₂⟩, hn, hp⟩ := bind_eq_ok hp
  obtain ⟨⟨body, c₃, h₃⟩, hb, hp⟩ := bind_eq_ok hp
  cases hp
  exact .function h₀ (expect_eq_ok ho) (reads_parameters hn) (reads_block hb)
termination_by 4 * c.left + 3
decreasing_by all_goals omega

lemma reads_list {close : Sign} {c : Cursor} {p : Parsed (List Expr) c.left}
    (hp : list close c = .ok p) :
    Reads (.list close p.value) c p.rest := by
  rw [list] at hp
  split_ifs at hp with hc
  · cases hp
    exact .noItems (passes_next hc (by simp))
  · obtain ⟨es, hv, hr⟩ := reads_items hp
    rw [hv]
    exact .someItems hc hr
termination_by 4 * c.left + 3
decreasing_by all_goals omega

/-- Items that were read come behind those from before. -/
lemma reads_items {close : Sign} {acc : List Expr} {bound : Nat} {c : Cursor} {h : c.left ≤ bound}
    {p : Parsed (List Expr) bound} (hp : items close acc bound c h = .ok p) :
    ∃ es, p.value = acc.reverse ++ es ∧ Reads (.items close es) c p.rest := by
  rw [items] at hp
  obtain ⟨⟨e, c₁, h₁⟩, he, hp⟩ := bind_eq_ok hp
  simp only at hp
  split_ifs at hp with hc
  · have := c₁.left_next_le
    obtain ⟨es, hv, hr⟩ := reads_items hp
    refine ⟨e :: es, ?_, .nextItem (reads_expression he) (passes_next hc (by simp)) hr⟩
    rw [hv, reverse_cons_append]
  · obtain ⟨⟨_, c₂, h₂⟩, hcl, hp⟩ := bind_eq_ok hp
    cases hp
    exact ⟨[e], List.reverse_cons, .lastItem (reads_expression he) hc (expect_eq_ok hcl)⟩
termination_by 4 * c.left + 2
decreasing_by all_goals omega

/-- Pairs that were read come behind those from before. -/
lemma reads_pairs {acc : List (Expr × Expr)} {bound : Nat} {c : Cursor} {h : c.left < bound}
    {p : Parsed (List (Expr × Expr)) bound} (hp : pairs acc bound c h = .ok p) :
    ∃ ps, p.value = acc.reverse ++ ps ∧ Reads (.pairs ps) c p.rest := by
  rw [pairs] at hp
  split_ifs at hp with hc
  · cases hp
    exact ⟨[], (List.append_nil _).symm, .noPairs (passes_next hc (by simp))⟩
  · obtain ⟨⟨key, c₁, h₁⟩, hk, hp⟩ := bind_eq_ok hp
    obtain ⟨⟨_, c₂, h₂⟩, hcol, hp⟩ := bind_eq_ok hp
    obtain ⟨⟨value, c₃, h₃⟩, hval, hp⟩ := bind_eq_ok hp
    simp only at hp
    split_ifs at hp with hb
    · -- the brace that was seen ends the pairs at once
      rw [pairs, if_pos hb] at hp
      cases hp
      exact ⟨[(key, value)], List.reverse_cons,
        .lastPair hc (reads_expression hk) (expect_eq_ok hcol)
        (reads_expression hval) (passes_next hb (by simp))⟩
    · obtain ⟨⟨_, c₄, h₄⟩, hcomma, hp⟩ := bind_eq_ok hp
      obtain ⟨ps, hv, hr⟩ := reads_pairs hp
      refine ⟨(key, value) :: ps, ?_,
        .nextPair hc (reads_expression hk) (expect_eq_ok hcol) (reads_expression hval)
        (expect_eq_ok hcomma) hr⟩
      rw [hv, reverse_cons_append]
termination_by 4 * c.left + 2
decreasing_by all_goals omega

lemma reads_block {c : Cursor} {p : Parsed (List Stmt) c.left} (hp : block c = .ok p) :
    Reads (.block p.value) c p.rest := by
  rw [block] at hp
  obtain ⟨⟨_, c₁, h₁⟩, ho, hp⟩ := bind_eq_ok hp
  obtain ⟨ss, hv, hr⟩ := reads_body hp
  rw [hv]
  exact .block (expect_eq_ok ho) hr
termination_by 4 * c.left
decreasing_by all_goals omega

/-- So do the statements of a block. -/
lemma reads_body {acc : List Stmt} {bound : Nat} {c : Cursor} {h : c.left < bound}
    {p : Parsed (List Stmt) bound} (hp : body acc bound c h = .ok p) :
    ∃ ss, p.value = acc.reverse ++ ss ∧ Reads (.body ss) c p.rest := by
  rw [body] at hp
  split at hp
  · cases hp
  · next hl =>
      cases hp
      exact ⟨[], (List.append_nil _).symm, .endBody (look_eq_token hl)⟩
  · next hl =>
      obtain ⟨ss, hv, hr⟩ := reads_body hp
      exact ⟨ss, hv, .skipInBody (look_eq_token hl) hr⟩
  · next t rest hr hclose hsemi hl =>
      have ht := look_eq_token hl
      obtain ⟨⟨s, c₁, h₁⟩, hs, hp⟩ := bind_eq_ok hp
      obtain ⟨ss, hv, hr⟩ := reads_body hp
      refine ⟨s :: ss, ?_,
        .stmtInBody ht.peek_ne_eof (ht.peek ▸ hclose) (ht.peek ▸ hsemi) (reads_statement hs) hr⟩
      rw [hv, reverse_cons_append]
termination_by 4 * c.left + 3
decreasing_by all_goals omega

/-- A statement is read with the semicolon that may end it. -/
lemma reads_statement {c : Cursor} {p : Parsed Stmt c.left} (hp : statement c = .ok p) :
    Reads (.stmt p.value) c p.rest := by
  rw [statement] at hp
  split at hp
  · next hl =>
      obtain ⟨⟨n, c₁, h₁⟩, hn, hp⟩ := bind_eq_ok hp
      obtain ⟨⟨_, c₂, h₂⟩, ha, hp⟩ := bind_eq_ok hp
      obtain ⟨⟨value, c₃, h₃⟩, hval, hp⟩ := bind_eq_ok hp
      cases hp
      exact .define (look_eq_token hl) (name_eq_ok hn) (expect_eq_ok ha) (reads_expression hval)
  · next hl =>
      obtain ⟨⟨value, c₁, h₁⟩, hval, hp⟩ := bind_eq_ok hp
      cases hp
      exact .ret (look_eq_token hl) (reads_expression hval)
  · next hlet hreturn =>
      have hlet := peek_ne hlet (by simp)
      have hreturn := peek_ne hreturn (by simp)
      obtain ⟨⟨e, c₁, h₁⟩, he, hp⟩ := bind_eq_ok hp
      simp only at hp
      split_ifs at hp with ha
      · have := c₁.left_next_le
        obtain ⟨⟨value, c₂, h₂⟩, hval, hp⟩ := bind_eq_ok hp
        cases hp
        exact .assign hlet hreturn (reads_expression he) (passes_next ha (by simp))
          (reads_expression hval)
      · cases hp
        exact .exprStmt hlet hreturn (reads_expression he) ha
termination_by 4 * c.left + 2
decreasing_by all_goals omega

end

/-- The statements of a program come behind those from before, and the text ends behind them. -/
lemma reads_statements {acc : List Stmt} {bound : Nat} {c : Cursor} {h : c.left < bound}
    {p : Parsed Program bound} (hp : statements acc bound c h = .ok p) :
    ∃ ss, p.value = acc.reverse ++ ss ∧ Reads (.program ss) c p.rest ∧ p.rest.peek = .eof := by
  rw [statements] at hp
  split at hp
  · next hl =>
      cases hp
      have he := look_eq_stop hl
      exact ⟨[], (List.append_nil _).symm, .endProgram he, he⟩
  · next hl =>
      obtain ⟨ss, hv, hr, he⟩ := reads_statements hp
      exact ⟨ss, hv, .skipInProgram (look_eq_token hl) hr, he⟩
  · next t rest hr hsemi hl =>
      have ht := look_eq_token hl
      obtain ⟨⟨s, c₁, h₁⟩, hs, hp⟩ := bind_eq_ok hp
      obtain ⟨ss, hv, hr, he⟩ := reads_statements hp
      refine ⟨s :: ss, ?_,
        .stmtInProgram ht.peek_ne_eof (ht.peek ▸ hsemi) (reads_statement hs) hr, he⟩
      rw [hv, reverse_cons_append]
termination_by c.left
decreasing_by all_goals omega

/-- **A program that was parsed was read,** up to the end of the text. -/
theorem reads_program {acc : List Stmt} {c : Cursor} {p : Program} (hp : program acc c = .ok p) :
    ∃ ss c', p = acc.reverse ++ ss ∧ Reads (.program ss) c c' ∧ c'.peek = .eof := by
  unfold program at hp
  split at hp
  · next x hx =>
      cases hp
      obtain ⟨ss, hv, hr, he⟩ := reads_statements hx
      exact ⟨ss, x.rest, hv, hr, he⟩
  · cases hp

end Parser

end Marmoset
