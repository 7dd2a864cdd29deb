import Marmoset.Proofs.Grammar
import Marmoset.Token.Listing

/-!
# The tokens of a tree

A tree remembers the tokens that it was read from, save those that only separate or group.
`Expr.yield` and `Stmt.yield` spell them out in source order.  `Reads.kept` says phrase by phrase
that these are the tokens that were passed, and `Program.yield_of_ofLexemes` says it of whole
programs: reading loses no token, uses none twice and leaves each in its place.
-/

namespace Marmoset

/-- Whether a token leaves a trace in the tree.  Comments, parentheses, commas and semicolons do
not. -/
def Token.isKept : Token → Bool
  | .comment _ => false
  | .sign .openParen | .sign .closeParen | .sign .comma | .sign .semicolon => false
  | _ => true

namespace Sign

/-- The sign that is spelled so, if there is one. -/
def ofText? (text : String) : Option Sign :=
  all.find? fun s => s.text == text

/-- What is left of a sign. -/
def trace (s : Sign) : List Token :=
  [Token.sign s].filter Token.isKept

@[simp] lemma trace_closeParen : trace closeParen = [] := rfl

@[simp] lemma trace_closeBracket : trace closeBracket = [.sign closeBracket] := rfl

/-- No two signs are spelled alike. -/
lemma ofText?_text (s : Sign) : ofText? s.text = some s := by
  cases s <;> decide

end Sign

/-- The token of an operator; a spelling that is no sign has none. -/
def Token.ofOperator (op : String) : List Token :=
  (Sign.ofText? op).toList.map .sign

@[simp] lemma Token.ofOperator_text (s : Sign) : Token.ofOperator s.text = [.sign s] := by
  rw [Token.ofOperator, Sign.ofText?_text]
  rfl

mutual

/-- The tokens of an expression in source order. -/
@[simp] def Expr.yield : Expr → List Token
  | .ident name => [.ident name]
  | .integer n => [.integer n]
  | .float x => [.float x]
  | .string s => [.string s]
  | .boolean b => [.keyword (if b then .trueWord else .falseWord)]
  | .nil => [.keyword .nilWord]
  | .array items => .sign .openBracket :: Expr.yields items ++ [.sign .closeBracket]
  | .hash pairs => .sign .openBrace :: Expr.pairYields pairs ++ [.sign .closeBrace]
  | .function _ params body =>
    .keyword .fnWord :: params.map .ident ++ .sign .openBrace :: Stmt.yields body ++
      [.sign .closeBrace]
  | .unary op right => Token.ofOperator op ++ right.yield
  | .binary op left right => left.yield ++ Token.ofOperator op ++ right.yield
  | .index left index => left.yield ++ .sign .openBracket :: index.yield ++ [.sign .closeBracket]
  | .cond condition yes none =>
    .keyword .ifWord :: condition.yield ++ .sign .openBrace :: Stmt.yields yes ++
      [.sign .closeBrace]
  | .cond condition yes (some no) =>
    .keyword .ifWord :: condition.yield ++ .sign .openBrace :: Stmt.yields yes ++
      [.sign .closeBrace] ++
      .keyword .elseWord :: .sign .openBrace :: Stmt.yields no ++ [.sign .closeBrace]
  | .call callee args => callee.yield ++ Expr.yields args
termination_by structural e => e

/-- The tokens of a statement in source order. -/
@[simp] def Stmt.yield : Stmt → List Token
  | .define name value => .keyword .letWord :: .ident name :: .sign .assign :: value.yield
  | .assign target value => target.yield ++ .sign .assign :: value.yield
  | .ret value => .keyword .returnWord :: value.yield
  | .expr e => e.yield
  | .block body => .sign .openBrace :: Stmt.yields body ++ [.sign .closeBrace]
termination_by structural s => s

@[simp] def Expr.yields : List Expr → List Token
  | [] => []
  | e :: es => e.yield ++ Expr.yields es
termination_by structural es => es

@[simp] def Expr.pairYields : List (Expr × Expr) → List Token
  | [] => []
  | (k, v) :: ps => k.yield ++ .sign .colon :: v.yield ++ Expr.pairYields ps
termination_by structural ps => ps

@[simp] def Stmt.yields : List Stmt → List Token
  | [] => []
  | s :: ss => s.yield ++ Stmt.yields ss
termination_by structural ss => ss

end

/-- The tokens of a program in source order. -/
def Program.yield (p : Program) : List Token :=
  Stmt.yields p

/-- The tokens before the end of the text that leave a trace. -/
def Lexeme.kept (ls : List Lexeme) : List Token :=
  ((ls.map Lexeme.token).takeWhile (· ≠ .eof)).filter Token.isKept

/-! ## Trees that only differ in a name of a function -/

/-- The name that a function gets from its binding is not seen twice. -/
@[simp] lemma Expr.yield_named (n : String) (e : Expr) : (e.named n).yield = e.yield := by
  cases e <;> rfl

/-- The same holds where the binding is an assignment. -/
@[simp] lemma Expr.yield_assignedTo (target value : Expr) :
    (target.assignedTo value).yield = value.yield := by
  unfold Expr.assignedTo
  split
  · exact value.yield_named _
  · rfl

/-- A token that is an expression on its own is all that is to be seen of it. -/
lemma Expr.yield_of_atom? {t : Token} {e : Expr} (h : t.atom? = some e) :
    e.yield = [t] ∧ t.isKept = true := by
  cases t with
  | keyword k => cases k <;> cases h <;> exact ⟨rfl, rfl⟩
  | sign s => cases h
  | _ => cases h <;> exact ⟨rfl, rfl⟩

/-! ## Passing tokens -/

/-- Nothing is kept behind the end of the text. -/
lemma Lexeme.kept_cons (l : Lexeme) (ls : List Lexeme) :
    Lexeme.kept (l :: ls) =
      if l.token = .eof then [] else if l.token.isKept then l.token :: Lexeme.kept ls
        else Lexeme.kept ls := by
  by_cases he : l.token = .eof <;> simp [Lexeme.kept, he, List.filter_cons]

namespace Cursor

/-- The tokens ahead that leave a trace. -/
def kept (c : Cursor) : List Token :=
  Lexeme.kept c.ahead

/-- A token that leaves a trace is passed. -/
lemma Passes.kept {c c' : Cursor} {t : Token} (h : c.Passes t c') (hk : t.isKept = true) :
    c.kept = t :: c'.kept := by
  cases h with
  | token h => exact (Lexeme.kept_cons ..).trans ((if_neg h).trans (if_pos hk))

/-- One that leaves none is passed. -/
lemma Passes.dropped {c c' : Cursor} {t : Token} (h : c.Passes t c') (hk : t.isKept = false) :
    c.kept = c'.kept := by
  cases h with
  | token h => exact (Lexeme.kept_cons ..).trans ((if_neg h).trans (if_neg (by simp [hk])))

/-- Both together, for a sign that is not known. -/
lemma Passes.kept_sign {c c' : Cursor} {s : Sign} (h : c.Passes (.sign s) c') :
    c.kept = s.trace ++ c'.kept := by
  cases hk : (Token.sign s).isKept with
  | true => simp [h.kept hk, hk, Sign.trace]
  | false => simp [h.dropped hk, hk, Sign.trace]

/-- At the end of the text nothing is ahead. -/
lemma kept_of_eof {c : Cursor} (h : c.peek = .eof) : c.kept = [] := by
  obtain ⟨ahead, last⟩ := c
  cases ahead with
  | nil => rfl
  | cons l ls => exact (Lexeme.kept_cons ..).trans (if_pos h)

@[simp] lemma kept_skipSemicolon (c : Cursor) : c.skipSemicolon.kept = c.kept := by
  unfold skipSemicolon
  split_ifs with h
  · exact ((passes_next h (by simp)).dropped rfl).symm
  · rfl

/-- Comments are left out before they are read. -/
lemma kept_ofLexemes (ls : List Lexeme) : (ofLexemes ls).kept = Lexeme.kept ls := by
  show Lexeme.kept (ls.filter fun l => !l.token.isComment) = Lexeme.kept ls
  induction ls with
  | nil => rfl
  | cons l ls ih =>
      by_cases hc : l.token.isComment
      · have hk : l.token.isKept = false ∧ l.token ≠ .eof := by
          unfold Token.isComment at hc
          split at hc
          · next ht => simp [ht, Token.isKept]
          · cases hc
        rw [List.filter_cons_of_neg (by simp [hc]), ih, Lexeme.kept_cons, if_neg hk.2, hk.1]
        rfl
      · rw [List.filter_cons_of_pos (by simp [hc]), Lexeme.kept_cons, Lexeme.kept_cons, ih]

end Cursor

/-- An operator between two expressions leaves a trace. -/
lemma Sign.isKept_of_power {s : Sign} {n : Nat} (h : n < s.power) (hs : s ≠ .openParen) :
    (Token.sign s).isKept = true := by
  cases s <;> simp_all [Sign.power, Token.isKept]

lemma Sign.isKept_of_isUnary {s : Sign} (h : s.isUnary = true) : (Token.sign s).isKept = true := by
  cases s <;> simp_all [Sign.isUnary, Token.isKept]

/-! ## Phrases -/

namespace Phrase

/-- What the tree of a phrase has from before the phrase. -/
def before : Phrase → List Token
  | .more _ left _ => left.yield
  | _ => []

/-- The tokens of a phrase, a closing sign included. -/
def yield : Phrase → List Token
  | .expr _ e | .more _ _ e | .operand e => e.yield
  | .list close es | .items close es => Expr.yields es ++ close.trace
  | .pairs ps => Expr.pairYields ps ++ [.sign .closeBrace]
  | .parameters ns | .names ns => ns.map .ident
  | .block ss => .sign .openBrace :: Stmt.yields ss ++ [.sign .closeBrace]
  | .body ss => Stmt.yields ss ++ [.sign .closeBrace]
  | .stmt s => s.yield
  | .program ss => Stmt.yields ss

end Phrase

/-- **Reading a phrase takes the tokens of its tree.**  What was ahead are the tokens of the tree,
in order, and then what is ahead afterwards. -/
theorem Reads.kept {φ : Phrase} {c c' : Cursor} (h : Reads φ c c') :
    φ.before ++ c.kept = φ.yield ++ c'.kept := by
  induction h
  -- what is left to say in each case is about the trees of the phrases
  all_goals simp only [Phrase.before, Phrase.yield, List.nil_append] at *
  case expr ih₁ ih₂ => rw [ih₁, ih₂]
  case call hopen _ _ ih₁ ih₂ => simpa [hopen.dropped rfl, ih₁] using ih₂
  case index hopen _ hclose _ ih₁ ih₂ => simpa [hopen.kept rfl, ih₁, hclose.kept rfl] using ih₂
  case binary hpower hs _ hsign _ _ ih₁ ih₂ =>
    simpa [hsign.kept (Sign.isKept_of_power hpower hs), ih₁] using ih₂
  case atom hatom ht =>
    obtain ⟨hy, hk⟩ := Expr.yield_of_atom? hatom
    rw [ht.kept hk, hy, List.singleton_append]
  case paren hopen _ hclose ih => rw [hopen.dropped rfl, ih, hclose.dropped rfl]
  case array hopen _ ih => simp [hopen.kept rfl, ih]
  case hash hopen _ ih => simp [hopen.kept rfl, ih]
  case unary hu hs _ ih => simp [hs.kept (Sign.isKept_of_isUnary hu), ih]
  case cond hif hopen _ hclose _ _ ih₁ ih₂ =>
    simp [hif.kept rfl, hopen.dropped rfl, ih₁, hclose.dropped rfl, ih₂]
  case condElse hif hopen _ hclose _ helse _ ih₁ ih₂ ih₃ =>
    simp [hif.kept rfl, hopen.dropped rfl, ih₁, hclose.dropped rfl, ih₂, helse.kept rfl, ih₃]
  case function hfn hopen _ _ ih₁ ih₂ => simp [hfn.kept rfl, hopen.dropped rfl, ih₁, ih₂]
  case noItems hclose => simp [hclose.kept_sign]
  case someItems ih => exact ih
  case lastItem hclose ih => simp [ih, hclose.kept_sign]
  case nextItem hcomma _ ih₁ ih₂ => simp [ih₁, hcomma.dropped rfl, ih₂]
  case noPairs hclose => simp [hclose.kept rfl]
  case lastPair hcolon _ hclose ih₁ ih₂ => simp [ih₁, hcolon.kept rfl, ih₂, hclose.kept rfl]
  case nextPair hcolon _ hcomma _ ih₁ ih₂ ih₃ =>
    simp [ih₁, hcolon.kept rfl, ih₂, hcomma.dropped rfl, ih₃]
  case noNames hclose => simp [hclose.dropped rfl]
  case someNames ih => exact ih
  case lastName hn hclose => simp [hn.kept rfl, hclose.dropped rfl]
  case nextName hn hcomma _ ih => simp [hn.kept rfl, hcomma.dropped rfl, ih]
  case block hopen _ ih => simp [hopen.kept rfl, ih]
  case endBody hclose => simp [hclose.kept rfl]
  case skipInBody hsemi _ ih => rw [hsemi.dropped rfl, ih]
  case stmtInBody ih₁ ih₂ => simp [ih₁, ih₂]
  case define hlet hn hassign _ ih => simp [hlet.kept rfl, hn.kept rfl, hassign.kept rfl, ih]
  case ret hret _ ih => simp [hret.kept rfl, ih]
  case assign hassign _ ih₁ ih₂ => simp [ih₁, hassign.kept rfl, ih₂]
  case exprStmt ih => simp [ih]
  case endProgram => rfl
  case skipInProgram hsemi _ ih => rw [hsemi.dropped rfl, ih]
  case stmtInProgram ih₁ ih₂ => simp [ih₁, ih₂]

/-- **The parser loses, doubles and moves no token.**  The tokens before the end of the text, less
comments, parentheses, commas and semicolons, are the tokens of the program. -/
theorem Program.yield_of_ofLexemes {ls : List Lexeme} {p : Program}
    (h : Program.ofLexemes ls = .ok p) :
    Lexeme.kept ls = p.yield := by
  obtain ⟨p, c', rfl, hr, he⟩ := Parser.reads_program h
  calc Lexeme.kept ls = (Cursor.ofLexemes ls).kept := (Cursor.kept_ofLexemes ls).symm
    _ = p.yield ++ c'.kept := hr.kept
    _ = p.yield := by rw [Cursor.kept_of_eof he, List.append_nil]

/-- A comment, a negative number, commas and semicolons that may stand or not, and tokens after the
end. -/
def crowded : List Lexeme :=
  [.comment "", .keyword .letWord, .ident "f", .sign .assign, .keyword .fnWord,
    .sign .openParen, .ident "x",
    .sign .comma, .ident "y", .sign .closeParen, .sign .openBrace, .sign .openBrace, .ident "x",
    .sign .colon,
    .integer (-3), .sign .comma, .sign .closeBrace, .sign .closeBrace, .sign .semicolon,
    .sign .semicolon,
    .sign .openParen, .ident "f", .sign .closeParen, .sign .openParen, .sign .bang, .ident "f",
    .sign .closeParen,
    .eof, .keyword .elseWord].map fun t => ⟨t, .start⟩

set_option maxRecDepth 100000 in
/-- All that is kept of the text is in the tree, and nothing behind the end is. -/
theorem crowded_yield :
    ∃ p, Program.ofLexemes crowded = .ok p ∧ Lexeme.kept crowded = p.yield ∧
      p.yield =
        [.keyword .letWord, .ident "f", .sign .assign, .keyword .fnWord, .ident "x", .ident "y",
          .sign .openBrace,
          .sign .openBrace, .ident "x", .sign .colon, .integer (-3), .sign .closeBrace,
          .sign .closeBrace,
          .ident "f", .sign .bang, .ident "f"] := by
  have htest : (Program.ofLexemes crowded).isOk = true := by decide +kernel
  cases hp : Program.ofLexemes crowded with
  | error e =>
      rw [hp] at htest
      cases htest
  | ok p =>
      have hy := Program.yield_of_ofLexemes hp
      exact ⟨p, rfl, hy, hy ▸ (by decide)⟩

end Marmoset
