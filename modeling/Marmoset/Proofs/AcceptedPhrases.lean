import Marmoset.Proofs.Grammar

/-!
# The parser accepts what the grammar reads

`Grammar` says that whatever the parser comes to was read by the grammar.  Here is the other
direction: where the grammar reads a phrase, the parser reads the same phrase and stops at the same
place.

* `Phrase.Accepted` — the function that reads a phrase comes to it, whatever it has gathered before.
* **`Reads.accepted`** — one case for each way to read a phrase.
* `Program.ofLexemes_of_reads` — so a program that can be read is what the lexemes are parsed to.
-/

namespace Marmoset

/-! ## The next token -/

namespace Cursor

variable {c c' : Cursor} {t : Token}

/-- Looking finds a token that can be passed. -/
lemma Passes.look (h : c.Passes t c') : ∃ hr, c.look = .token t c' hr := by
  cases h with
  | token ht => exact ⟨by simp [left], if_neg ht⟩

lemma Passes.next (h : c.Passes t c') : c.next = c' := by
  cases h
  rfl

/-- Passing a token leaves fewer ahead. -/
lemma Passes.left_lt (h : c.Passes t c') : c'.left < c.left :=
  h.look.1

/-- A sign that comes next is the one expected. -/
lemma Passes.expect {s : Sign} (h : c.Passes (.sign s) c') :
    ∃ hr, c.expect s = .ok ⟨(), c', hr⟩ := by
  obtain rfl := h.next
  exact ⟨h.left_lt, dif_pos h.peek⟩

/-- A name that comes next is taken, wherever a name is asked for. -/
lemma Passes.name {n : String} (h : c.Passes (.ident n) c') (place : NamePlace) :
    ∃ hr, c.name place = .ok ⟨n, c', hr⟩ := by
  obtain ⟨hr, hl⟩ := h.look
  exact ⟨hr, by rw [Cursor.name, hl]⟩

/-- At the end of the text there is nothing to look at. -/
lemma look_of_eof (h : c.peek = .eof) : c.look = .stop := by
  obtain ⟨ahead, last⟩ := c
  cases ahead with
  | nil => rfl
  | cons l ls => exact if_pos h

end Cursor

/-! ## Phrases -/

/-- The parser reads the phrase from `c` to `c'`.  What it gathers on the way goes behind what it
has gathered before. -/
def Phrase.Accepted (c c' : Cursor) : Phrase → Prop
  | .expr power e => ∃ h, Parser.expression power c = .ok ⟨e, c', h⟩
  | .more power left e => ∀ bound h, ∃ h', Parser.climb power left bound c h = .ok ⟨e, c', h'⟩
  | .operand e => ∃ h, Parser.operand c = .ok ⟨e, c', h⟩
  | .list close es => ∃ h, Parser.list close c = .ok ⟨es, c', h⟩
  | .items close es =>
    ∀ acc bound h, ∃ h', Parser.items close acc bound c h = .ok ⟨acc.reverse ++ es, c', h'⟩
  | .pairs ps => ∀ acc bound h, ∃ h', Parser.pairs acc bound c h = .ok ⟨acc.reverse ++ ps, c', h'⟩
  | .parameters ns => ∃ h, Parser.parameters c = .ok ⟨ns, c', h⟩
  | .names ns => ∀ acc bound h, ∃ h', Parser.names acc bound c h = .ok ⟨acc.reverse ++ ns, c', h'⟩
  | .block ss => ∃ h, Parser.block c = .ok ⟨ss, c', h⟩
  | .body ss => ∀ acc bound h, ∃ h', Parser.body acc bound c h = .ok ⟨acc.reverse ++ ss, c', h'⟩
  | .stmt s => ∃ h, Parser.statement c = .ok ⟨s, c', h⟩
  | .program ss =>
    ∀ acc bound h, ∃ h', Parser.statements acc bound c h = .ok ⟨acc.reverse ++ ss, c', h'⟩

namespace Parser

open Cursor

variable {c c₁ c₂ c₃ c₄ c₅ c₆ c₇ : Cursor}

/-! ## Expressions -/

/-- What binds no tighter is left to whoever reads on from here. -/
lemma climb_stop {power : Nat} (e : Expr) {bound : Nat} (h : c.left < bound)
    (hstop : ∀ s, c.peek = .sign s → s.power ≤ power) :
    climb power e bound c h = .ok ⟨e, c, h⟩ := by
  rw [climb]
  split
  · next s rest hr hl => rw [if_pos (hstop s (look_eq_token hl).peek)]
  · rfl

/-- An opening parenthesis behind an expression makes a call of it, and the climb goes on. -/
lemma climb_call {power : Nat} {left e : Expr} {args : List Expr}
    (hpower : power < Sign.openParen.power) (hopen : c.Passes (.sign .openParen) c₁)
    (hargs : (Phrase.list .closeParen args).Accepted c₁ c₂)
    (hmore : (Phrase.more power (.call left args) e).Accepted c₂ c₃) :
    (Phrase.more power left e).Accepted c c₃ := by
  intro bound h
  obtain ⟨hr, hl⟩ := hopen.look
  obtain ⟨h₂, hargs⟩ := hargs
  rw [climb, hl]
  dsimp only
  rw [if_neg (Nat.not_le.mpr hpower), hargs]
  exact hmore bound _

/-- An opening bracket behind an expression makes an index of it. -/
lemma climb_index {power : Nat} {left index e : Expr} (hpower : power < Sign.openBracket.power)
    (hopen : c.Passes (.sign .openBracket) c₁) (hindex : (Phrase.expr 0 index).Accepted c₁ c₂)
    (hclose : c₂.Passes (.sign .closeBracket) c₃)
    (hmore : (Phrase.more power (.index left index) e).Accepted c₃ c₄) :
    (Phrase.more power left e).Accepted c c₄ := by
  intro bound h
  obtain ⟨hr, hl⟩ := hopen.look
  obtain ⟨h₂, hindex⟩ := hindex
  obtain ⟨h₃, hclose⟩ := hclose.expect
  rw [climb, hl]
  dsimp only
  rw [if_neg (Nat.not_le.mpr hpower)]
  simp only [hindex, hclose, bind, Except.bind]
  exact hmore bound _

/-- An operator that binds tighter takes the right operand up to what binds less tightly. -/
lemma climb_binary {power : Nat} {s : Sign} {left right e : Expr} (hpower : power < s.power)
    (hparen : s ≠ .openParen) (hbracket : s ≠ .openBracket) (hs : c.Passes (.sign s) c₁)
    (hright : (Phrase.expr s.power right).Accepted c₁ c₂)
    (hmore : (Phrase.more power (.binary s.text left right) e).Accepted c₂ c₃) :
    (Phrase.more power left e).Accepted c c₃ := by
  intro bound h
  obtain ⟨hr, hl⟩ := hs.look
  obtain ⟨h₂, hright⟩ := hright
  rw [climb, hl]
  dsimp only
  rw [if_neg (Nat.not_le.mpr hpower)]
  split
  · exact absurd rfl hparen
  · exact absurd rfl hbracket
  · rw [hright]
    exact hmore bound _

/-- A sign is no expression on its own. -/
lemma atom?_sign (s : Sign) : (Token.sign s).atom? = none := rfl

/-- Nor is a keyword that opens one. -/
lemma atom?_keyword {k : Keyword} (h : k = .ifWord ∨ k = .fnWord) :
    (Token.keyword k).atom? = none := by
  rcases h with rfl | rfl <;> rfl

/-- A token that stands for an expression by itself. -/
lemma operand_atom {t : Token} {e : Expr} (hatom : t.atom? = some e) (ht : c.Passes t c₁) :
    (Phrase.operand e).Accepted c c₁ := by
  obtain ⟨hr, hl⟩ := ht.look
  refine ⟨hr, ?_⟩
  rw [operand, hl]
  dsimp only
  rw [hatom]

/-- Parentheses leave no trace in the tree. -/
lemma operand_paren {e : Expr} (hopen : c.Passes (.sign .openParen) c₁)
    (he : (Phrase.expr 0 e).Accepted c₁ c₂) (hclose : c₂.Passes (.sign .closeParen) c₃) :
    (Phrase.operand e).Accepted c c₃ := by
  obtain ⟨hr, hl⟩ := hopen.look
  obtain ⟨h₂, he⟩ := he
  obtain ⟨h₃, hclose⟩ := hclose.expect
  refine ⟨by omega, ?_⟩
  rw [operand, hl]
  simp only [atom?_sign, he, hclose, bind, Except.bind]
  rfl

/-- An array is a list up to its closing bracket. -/
lemma operand_array {es : List Expr} (hopen : c.Passes (.sign .openBracket) c₁)
    (hes : (Phrase.list .closeBracket es).Accepted c₁ c₂) :
    (Phrase.operand (.array es)).Accepted c c₂ := by
  obtain ⟨hr, hl⟩ := hopen.look
  obtain ⟨h₂, hes⟩ := hes
  refine ⟨by omega, ?_⟩
  rw [operand, hl]
  simp only [atom?_sign, hes, bind, Except.bind]
  rfl

/-- A hash is pairs up to the closing brace. -/
lemma operand_hash {ps : List (Expr × Expr)} (hopen : c.Passes (.sign .openBrace) c₁)
    (hps : (Phrase.pairs ps).Accepted c₁ c₂) : (Phrase.operand (.hash ps)).Accepted c c₂ := by
  obtain ⟨hr, hl⟩ := hopen.look
  obtain ⟨h₂, hps⟩ := hps [] c.left hr
  refine ⟨h₂, ?_⟩
  rw [operand, hl]
  simp only [atom?_sign, hps, bind, Except.bind]
  rfl

/-- Two signs stand in front of an operand. -/
lemma eq_of_isUnary {s : Sign} (h : s.isUnary = true) : s = .bang ∨ s = .minus := by
  cases s <;> simp_all [Sign.isUnary]

/-- A prefix operator takes what binds tighter than it does. -/
lemma operand_unary {s : Sign} {e : Expr} (hunary : s.isUnary = true) (hs : c.Passes (.sign s) c₁)
    (he : (Phrase.expr Sign.unaryPower e).Accepted c₁ c₂) :
    (Phrase.operand (.unary s.text e)).Accepted c c₂ := by
  obtain ⟨hr, hl⟩ := hs.look
  obtain ⟨h₂, he⟩ := he
  refine ⟨by omega, ?_⟩
  rw [operand, hl]
  obtain rfl | rfl := eq_of_isUnary hunary
  all_goals
    simp only [atom?_sign, Sign.isUnary, if_true, he, bind, Except.bind]
    rfl

/-- A conditional without a second branch ends with its first one. -/
lemma operand_cond {condition : Expr} {yes : List Stmt} (hif : c.Passes (.keyword .ifWord) c₁)
    (hopen : c₁.Passes (.sign .openParen) c₂) (hcond : (Phrase.expr 0 condition).Accepted c₂ c₃)
    (hclose : c₃.Passes (.sign .closeParen) c₄) (hyes : (Phrase.block yes).Accepted c₄ c₅)
    (helse : c₅.peek ≠ .keyword .elseWord) :
    (Phrase.operand (.cond condition yes none)).Accepted c c₅ := by
  obtain ⟨hr, hl⟩ := hif.look
  obtain ⟨h₂, hopen⟩ := hopen.expect
  obtain ⟨h₃, hcond⟩ := hcond
  obtain ⟨h₄, hclose⟩ := hclose.expect
  obtain ⟨h₅, hyes⟩ := hyes
  refine ⟨by omega, ?_⟩
  rw [operand, hl]
  simp only [atom?_keyword (.inl rfl), conditional, hopen, hcond, hclose, hyes, if_neg helse, bind,
    Except.bind]
  rfl

/-- With the word for it there is a second branch. -/
lemma operand_condElse {condition : Expr} {yes no : List Stmt}
    (hif : c.Passes (.keyword .ifWord) c₁) (hopen : c₁.Passes (.sign .openParen) c₂)
    (hcond : (Phrase.expr 0 condition).Accepted c₂ c₃) (hclose : c₃.Passes (.sign .closeParen) c₄)
    (hyes : (Phrase.block yes).Accepted c₄ c₅) (helse : c₅.Passes (.keyword .elseWord) c₆)
    (hno : (Phrase.block no).Accepted c₆ c₇) :
    (Phrase.operand (.cond condition yes (some no))).Accepted c c₇ := by
  obtain ⟨hr, hl⟩ := hif.look
  obtain ⟨h₂, hopen⟩ := hopen.expect
  obtain ⟨h₃, hcond⟩ := hcond
  obtain ⟨h₄, hclose⟩ := hclose.expect
  obtain ⟨h₅, hyes⟩ := hyes
  obtain rfl := helse.next
  obtain ⟨h₇, hno⟩ := hno
  have h₆ := helse.left_lt
  refine ⟨by omega, ?_⟩
  rw [operand, hl]
  simp only [atom?_keyword (.inl rfl), conditional, hopen, hcond, hclose, hyes, if_pos helse.peek,
    hno, bind, Except.bind]
  rfl

/-- A function has parameters and a block; it gets its name from a binding. -/
lemma operand_function {ns : List String} {body : List Stmt} (hfn : c.Passes (.keyword .fnWord) c₁)
    (hopen : c₁.Passes (.sign .openParen) c₂) (hns : (Phrase.parameters ns).Accepted c₂ c₃)
    (hbody : (Phrase.block body).Accepted c₃ c₄) :
    (Phrase.operand (.function none ns body)).Accepted c c₄ := by
  obtain ⟨hr, hl⟩ := hfn.look
  obtain ⟨h₂, hopen⟩ := hopen.expect
  obtain ⟨h₃, hns⟩ := hns
  obtain ⟨h₄, hbody⟩ := hbody
  refine ⟨by omega, ?_⟩
  rw [operand, hl]
  simp only [atom?_keyword (.inr rfl), function, hopen, hns, hbody, bind, Except.bind]
  rfl

/-! ## Lists -/

/-- An expression and the closing sign end a list. -/
lemma items_last {close : Sign} {e : Expr} (he : (Phrase.expr 0 e).Accepted c c₁)
    (hcomma : c₁.peek ≠ .sign .comma) (hclose : c₁.Passes (.sign close) c₂) :
    (Phrase.items close [e]).Accepted c c₂ := by
  intro acc bound h
  obtain ⟨h₁, he⟩ := he
  obtain ⟨h₂, hclose⟩ := hclose.expect
  refine ⟨by omega, ?_⟩
  rw [items]
  simp only [he, if_neg hcomma, hclose, bind, Except.bind]
  rw [List.reverse_cons]
  rfl

/-- An expression and a comma go on with a list. -/
lemma items_next {close : Sign} {e : Expr} {es : List Expr} (he : (Phrase.expr 0 e).Accepted c c₁)
    (hcomma : c₁.Passes (.sign .comma) c₂) (hes : (Phrase.items close es).Accepted c₂ c₃) :
    (Phrase.items close (e :: es)).Accepted c c₃ := by
  intro acc bound h
  obtain ⟨h₁, he⟩ := he
  obtain rfl := hcomma.next
  have h₂ := hcomma.left_lt
  rw [items]
  simp only [he, if_pos hcomma.peek, bind, Except.bind]
  rw [← reverse_cons_append]
  exact hes (e :: acc) bound _

/-- The closing brace ends the pairs. -/
lemma pairs_end (hclose : c.Passes (.sign .closeBrace) c₁) : (Phrase.pairs []).Accepted c c₁ := by
  intro acc bound h
  obtain rfl := hclose.next
  refine ⟨Nat.lt_trans hclose.left_lt h, ?_⟩
  rw [pairs, if_pos hclose.peek, List.append_nil]

/-- A pair, and what follows it up to the closing brace: the brace itself, or a comma and more
pairs. -/
lemma pairs_pair {key value : Expr} {ps : List (Expr × Expr)} (hmore : c.peek ≠ .sign .closeBrace)
    (hkey : (Phrase.expr 0 key).Accepted c c₁) (hcolon : c₁.Passes (.sign .colon) c₂)
    (hvalue : (Phrase.expr 0 value).Accepted c₂ c₃)
    (hnext : (c₃.peek = .sign .closeBrace ∧ c₄ = c₃) ∨ c₃.Passes (.sign .comma) c₄)
    (hps : (Phrase.pairs ps).Accepted c₄ c₅) :
    (Phrase.pairs ((key, value) :: ps)).Accepted c c₅ := by
  intro acc bound h
  obtain ⟨h₁, hkey⟩ := hkey
  obtain ⟨h₂, hcolon⟩ := hcolon.expect
  obtain ⟨h₃, hvalue⟩ := hvalue
  rw [pairs, if_neg hmore]
  simp only [hkey, hcolon, hvalue, bind, Except.bind]
  rw [← reverse_cons_append]
  obtain ⟨hbrace, rfl⟩ | hcomma := hnext
  · rw [if_pos hbrace]
    exact hps ((key, value) :: acc) bound _
  · have hbrace : c₃.peek ≠ .sign .closeBrace := by simp [hcomma.peek]
    obtain ⟨h₄, hcomma⟩ := hcomma.expect
    simp only [if_neg hbrace, hcomma]
    exact hps ((key, value) :: acc) bound _

/-- A name and the closing parenthesis end the parameters. -/
lemma names_last {n : String} (hn : c.Passes (.ident n) c₁)
    (hclose : c₁.Passes (.sign .closeParen) c₂) :
    (Phrase.names [n]).Accepted c c₂ := by
  intro acc bound h
  obtain ⟨h₁, hn⟩ := hn.name .inParameters
  have hcomma : c₁.peek ≠ .sign .comma := by simp [hclose.peek]
  obtain ⟨h₂, hclose⟩ := hclose.expect
  refine ⟨by omega, ?_⟩
  rw [names]
  simp only [hn, if_neg hcomma, hclose, bind, Except.bind]
  rw [List.reverse_cons]
  rfl

/-- A name and a comma go on with them. -/
lemma names_next {n : String} {ns : List String} (hn : c.Passes (.ident n) c₁)
    (hcomma : c₁.Passes (.sign .comma) c₂) (hns : (Phrase.names ns).Accepted c₂ c₃) :
    (Phrase.names (n :: ns)).Accepted c c₃ := by
  intro acc bound h
  obtain ⟨h₁, hn⟩ := hn.name .inParameters
  obtain rfl := hcomma.next
  have h₂ := hcomma.left_lt
  rw [names]
  simp only [hn, if_pos hcomma.peek, bind, Except.bind]
  rw [← reverse_cons_append]
  exact hns (n :: acc) bound _

/-! ## Statements -/

/-- The closing brace ends a block. -/
lemma body_end (hclose : c.Passes (.sign .closeBrace) c₁) : (Phrase.body []).Accepted c c₁ := by
  intro acc bound h
  obtain ⟨hr, hl⟩ := hclose.look
  refine ⟨by omega, ?_⟩
  rw [body, hl, List.append_nil]

/-- Semicolons between statements are passed over. -/
lemma body_skip {ss : List Stmt} (hsemi : c.Passes (.sign .semicolon) c₁)
    (hss : (Phrase.body ss).Accepted c₁ c₂) :
    (Phrase.body ss).Accepted c c₂ := by
  intro acc bound h
  obtain ⟨hr, hl⟩ := hsemi.look
  rw [body, hl]
  exact hss acc bound _

/-- Anything else in a block is a statement. -/
lemma body_stmt {s : Stmt} {ss : List Stmt} (hmore : c.peek ≠ .eof)
    (hclose : c.peek ≠ .sign .closeBrace) (hsemi : c.peek ≠ .sign .semicolon)
    (hs : (Phrase.stmt s).Accepted c c₁) (hss : (Phrase.body ss).Accepted c₁ c₂) :
    (Phrase.body (s :: ss)).Accepted c c₂ := by
  intro acc bound h
  obtain ⟨h₁, hs⟩ := hs
  rw [body]
  split
  · next hl => exact absurd (look_eq_stop hl) hmore
  · next hl => exact absurd (look_eq_token hl).peek hclose
  · next hl => exact absurd (look_eq_token hl).peek hsemi
  · simp only [hs, bind, Except.bind]
    rw [← reverse_cons_append]
    exact hss (s :: acc) bound _

/-- A definition gives its name to a function that it binds. -/
lemma statement_define {n : String} {value : Expr} (hlet : c.Passes (.keyword .letWord) c₁)
    (hn : c₁.Passes (.ident n) c₂) (hassign : c₂.Passes (.sign .assign) c₃)
    (hvalue : (Phrase.expr 0 value).Accepted c₃ c₄) :
    (Phrase.stmt (.define n (value.named n))).Accepted c c₄.skipSemicolon := by
  obtain ⟨hr, hl⟩ := hlet.look
  obtain ⟨h₂, hn⟩ := hn.name .afterLet
  obtain ⟨h₃, hassign⟩ := hassign.expect
  obtain ⟨h₄, hvalue⟩ := hvalue
  refine ⟨Nat.lt_of_le_of_lt c₄.left_skipSemicolon_le (by omega), ?_⟩
  rw [statement, hl]
  simp only [hn, hassign, hvalue, bind, Except.bind]
  rfl

lemma statement_ret {value : Expr} (hreturn : c.Passes (.keyword .returnWord) c₁)
    (hvalue : (Phrase.expr 0 value).Accepted c₁ c₂) :
    (Phrase.stmt (.ret value)).Accepted c c₂.skipSemicolon := by
  obtain ⟨hr, hl⟩ := hreturn.look
  obtain ⟨h₂, hvalue⟩ := hvalue
  refine ⟨Nat.lt_of_le_of_lt c₂.left_skipSemicolon_le (by omega), ?_⟩
  rw [statement, hl]
  simp only [hvalue, bind, Except.bind]
  rfl

/-- So does an assignment to a name. -/
lemma statement_assign {target value : Expr} (hlet : c.peek ≠ .keyword .letWord)
    (hreturn : c.peek ≠ .keyword .returnWord) (htarget : (Phrase.expr 0 target).Accepted c c₁)
    (hassign : c₁.Passes (.sign .assign) c₂) (hvalue : (Phrase.expr 0 value).Accepted c₂ c₃) :
    (Phrase.stmt (.assign target (target.assignedTo value))).Accepted c c₃.skipSemicolon := by
  obtain ⟨h₁, htarget⟩ := htarget
  obtain rfl := hassign.next
  have h₂ := hassign.left_lt
  obtain ⟨h₃, hvalue⟩ := hvalue
  refine ⟨Nat.lt_of_le_of_lt c₃.left_skipSemicolon_le (by omega), ?_⟩
  rw [statement]
  split
  · next hl => exact absurd (look_eq_token hl).peek hlet
  · next hl => exact absurd (look_eq_token hl).peek hreturn
  · simp only [htarget, if_pos hassign.peek, hvalue, bind, Except.bind]
    rfl

/-- An expression that nothing is assigned to is a statement. -/
lemma statement_expr {e : Expr} (hlet : c.peek ≠ .keyword .letWord)
    (hreturn : c.peek ≠ .keyword .returnWord) (he : (Phrase.expr 0 e).Accepted c c₁)
    (hassign : c₁.peek ≠ .sign .assign) :
    (Phrase.stmt (.expr e)).Accepted c c₁.skipSemicolon := by
  obtain ⟨h₁, he⟩ := he
  refine ⟨Nat.lt_of_le_of_lt c₁.left_skipSemicolon_le h₁, ?_⟩
  rw [statement]
  split
  · next hl => exact absurd (look_eq_token hl).peek hlet
  · next hl => exact absurd (look_eq_token hl).peek hreturn
  · simp only [he, if_neg hassign, bind, Except.bind]
    rfl

/-- A program goes on with statements up to the end of the text. -/
lemma program_stmt {s : Stmt} {ss : List Stmt} (hmore : c.peek ≠ .eof)
    (hsemi : c.peek ≠ .sign .semicolon) (hs : (Phrase.stmt s).Accepted c c₁)
    (hss : (Phrase.program ss).Accepted c₁ c₂) :
    (Phrase.program (s :: ss)).Accepted c c₂ := by
  intro acc bound h
  obtain ⟨h₁, hs⟩ := hs
  rw [statements]
  split
  · next hl => exact absurd (look_eq_stop hl) hmore
  · next hl => exact absurd (look_eq_token hl).peek hsemi
  · simp only [hs, bind, Except.bind]
    rw [← reverse_cons_append]
    exact hss (s :: acc) bound _

end Parser

open Marmoset.Parser

/-- **What the grammar reads, the parser reads:** the same phrase, up to the same place. -/
theorem Reads.accepted {φ : Phrase} {c c' : Cursor} (h : Reads φ c c') : φ.Accepted c c' := by
  induction h with
  | expr _ _ ihleft ihmore =>
      obtain ⟨h₁, hleft⟩ := ihleft
      obtain ⟨h₂, hmore⟩ := ihmore _ h₁
      refine ⟨h₂, ?_⟩
      rw [expression, hleft]
      exact hmore
  | stop hstop => exact fun bound h => ⟨h, climb_stop _ h hstop⟩
  | call hpower hopen _ _ ihargs ihmore => exact climb_call hpower hopen ihargs ihmore
  | index hpower hopen _ hclose _ ihindex ihmore =>
      exact climb_index hpower hopen ihindex hclose ihmore
  | binary hpower hparen hbracket hs _ _ ihright ihmore =>
      exact climb_binary hpower hparen hbracket hs ihright ihmore
  | atom hatom ht => exact operand_atom hatom ht
  | paren hopen _ hclose ih => exact operand_paren hopen ih hclose
  | array hopen _ ih => exact operand_array hopen ih
  | hash hopen _ ih => exact operand_hash hopen ih
  | unary hunary hs _ ih => exact operand_unary hunary hs ih
  | cond hif hopen _ hclose _ helse ihcond ihyes =>
      exact operand_cond hif hopen ihcond hclose ihyes helse
  | condElse hif hopen _ hclose _ helse _ ihcond ihyes ihno =>
      exact operand_condElse hif hopen ihcond hclose ihyes helse ihno
  | function hfn hopen _ _ ihns ihbody => exact operand_function hfn hopen ihns ihbody
  | noItems hclose =>
      obtain rfl := hclose.next
      refine ⟨hclose.left_lt, ?_⟩
      rw [list, dif_pos hclose.peek]
  | someItems hclose _ ih =>
      obtain ⟨h', hes⟩ := ih [] _ (Nat.le_refl _)
      refine ⟨h', ?_⟩
      rw [list, dif_neg hclose]
      exact hes
  | lastItem _ hcomma hclose ih => exact items_last ih hcomma hclose
  | nextItem _ hcomma _ ih ihes => exact items_next ih hcomma ihes
  | noPairs hclose => exact pairs_end hclose
  | lastPair hmore _ hcolon _ hclose ihkey ihvalue =>
      exact pairs_pair hmore ihkey hcolon ihvalue (.inl ⟨hclose.peek, rfl⟩) (pairs_end hclose)
  | nextPair hmore _ hcolon _ hcomma _ ihkey ihvalue ihps =>
      exact pairs_pair hmore ihkey hcolon ihvalue (.inr hcomma) ihps
  | noNames hclose =>
      obtain rfl := hclose.next
      exact ⟨hclose.left_lt, dif_pos hclose.peek⟩
  | someNames hclose _ ih =>
      obtain ⟨h', hns⟩ := ih [] _ (Nat.le_refl _)
      exact ⟨h', (dif_neg hclose).trans hns⟩
  | lastName hn hclose => exact names_last hn hclose
  | nextName hn hcomma _ ih => exact names_next hn hcomma ih
  | block hopen _ ih =>
      obtain ⟨h₁, hopen⟩ := hopen.expect
      obtain ⟨h₂, hbody⟩ := ih [] _ h₁
      refine ⟨h₂, ?_⟩
      rw [Parser.block, hopen]
      exact hbody
  | endBody hclose => exact body_end hclose
  | skipInBody hsemi _ ih => exact body_skip hsemi ih
  | stmtInBody hmore hclose hsemi _ _ ihs ihss => exact body_stmt hmore hclose hsemi ihs ihss
  | define hlet hn hassign _ ih => exact statement_define hlet hn hassign ih
  | ret hreturn _ ih => exact statement_ret hreturn ih
  | assign hlet hreturn _ hassign _ ihtarget ihvalue =>
      exact statement_assign hlet hreturn ihtarget hassign ihvalue
  | exprStmt hlet hreturn _ hassign ih => exact statement_expr hlet hreturn ih hassign
  | endProgram hend =>
      intro acc bound h
      refine ⟨h, ?_⟩
      rw [Parser.statements, Cursor.look_of_eof hend, List.append_nil]
  | skipInProgram hsemi _ ih =>
      intro acc bound h
      obtain ⟨hr, hl⟩ := hsemi.look
      rw [Parser.statements, hl]
      exact ih acc bound _
  | stmtInProgram hmore hsemi _ _ ihs ihss => exact program_stmt hmore hsemi ihs ihss

/-- A program that the lexemes can be read as is the one they are parsed to. -/
theorem Program.ofLexemes_of_reads {ls : List Lexeme} {p : Program} {c : Cursor}
    (h : Reads (.program p) (Cursor.ofLexemes ls) c) : Program.ofLexemes ls = .ok p := by
  obtain ⟨h', hp⟩ := h.accepted [] _ (Nat.lt_succ_self _)
  rw [ofLexemes, Parser.program, hp]
  rfl

end Marmoset
