import Marmoset.Proofs.AcceptedPhrases
import Marmoset.Proofs.SpelledTokens
import Marmoset.Token.Listing
import Mathlib.Data.List.Forall2

/-!
# The canonical text is parsed back

The canonical text of a tree is meant for a reader, and for some trees it is no program: strings
stand without their quotes and blocks without their braces.  Without strings, fractions, functions
and conditionals the text is a program, and it is the program that was written.

* `Expr.Plain`, `Program.Plain` — the trees without these parts.
* `Token.Cut` — a text is cut into given tokens, in front of anything that does not go on with the
  last of them.
* `Token.Reading` — tokens are read as a given expression, in front of anything that may go on with
  the expression.
* `Expr.Plain.exists_spelling` — every plain expression has tokens with both properties.
* **`Program.ofText_text`** — the text of a plain program is parsed to this program.
-/

namespace Marmoset

/-! ## Passing several tokens -/

namespace Cursor

/-- The tokens `ts` come next, and `c'` is the place after them. -/
def Crosses (c : Cursor) : List Token → Cursor → Prop
  | [], c' => c = c'
  | t :: ts, c' => ∃ c₁, c.Passes t c₁ ∧ c₁.Crosses ts c'

/-- To pass two lists of tokens is to pass the first one and then the second one. -/
lemma crosses_append {c c' : Cursor} {ts us : List Token} :
    c.Crosses (ts ++ us) c' ↔ ∃ c₁, c.Crosses ts c₁ ∧ c₁.Crosses us c' := by
  induction ts generalizing c with
  | nil => simp [Crosses]
  | cons t ts ih =>
      simp only [List.cons_append, Crosses, ih]
      constructor
      · rintro ⟨c₁, h₁, c₂, h₂, h⟩
        exact ⟨c₂, ⟨c₁, h₁, h₂⟩, h⟩
      · rintro ⟨c₂, ⟨c₁, h₁, h₂⟩, h⟩
        exact ⟨c₁, h₁, c₂, h₂, h⟩

/-- All tokens before the end of the text can be passed. -/
lemma crosses_takeWhile (ls : List Lexeme) (last : Pos) :
    ∃ c', Crosses ⟨ls, last⟩ ((ls.map Lexeme.token).takeWhile (· ≠ .eof)) c' ∧ c'.peek = .eof := by
  induction ls generalizing last with
  | nil => exact ⟨_, rfl, rfl⟩
  | cons l ls ih =>
      by_cases hl : l.token = .eof
      · refine ⟨⟨l :: ls, last⟩, ?_, hl⟩
        rw [List.map_cons, List.takeWhile_cons_of_neg (by simpa using hl)]
        rfl
      · obtain ⟨c', hc, hend⟩ := ih l.pos
        refine ⟨c', ?_, hend⟩
        rw [List.map_cons, List.takeWhile_cons_of_pos (by simpa using hl)]
        exact ⟨_, .token hl, hc⟩

/-- Tokens that are written in front of the end of the text can be passed, all of them. -/
lemma exists_crosses {ls : List Lexeme} {ts : List Token} (hls : ls.map Lexeme.token = ts ++ [.eof])
    (hts : ∀ t ∈ ts, t ≠ .eof) (last : Pos) : ∃ c', Crosses ⟨ls, last⟩ ts c' ∧ c'.peek = .eof := by
  have hall : (ls.map Lexeme.token).takeWhile (· ≠ .eof) = ts := by
    rw [hls, List.takeWhile_append_of_pos (by simpa using hts)]
    simp
  rw [← hall]
  exact crosses_takeWhile ls last

end Cursor

/-! ## Texts and their tokens -/

namespace Token

/-- No token goes on with this text. -/
def Clear (rest : List Char) : Prop :=
  ∀ t : Token, t.EndsAt rest

lemma clear_nil : Clear [] := by
  intro t c hc
  cases hc

/-- Blanks, commas and brackets are clear of every token, whatever stands behind them. -/
lemma clear_cons {c : Char} (hc : c ∈ " ,;:()[]\x7d".toList) (cs : List Char) :
    Clear (c :: cs) := by
  have hall : (" ,;:()[]\x7d".toList.all fun c => !isNamePart c && c != '.' && c != '=' && c !=
      '/') = true := by decide
  have hplain := List.all_eq_true.mp hall c hc
  simp only [Bool.and_eq_true, Bool.not_eq_true', bne_iff_ne] at hplain
  obtain ⟨⟨⟨hpart, hdot⟩, hequal⟩, hslash⟩ := hplain
  intro t d hd
  cases hd
  cases t <;> simp [endsBefore, hpart, hdot, hequal, hslash]

/-- The signs that no token goes on with. -/
def dividers : List Sign :=
  [.comma, .semicolon, .colon, .openParen, .closeParen, .openBracket, .closeBracket, .closeBrace]

/-- No token goes on with this text, whatever follows it. -/
def Divides (text : String) : Prop :=
  ∀ rest, Clear (text.toList ++ rest)

/-- Where a dividing sign is written, the token before it ends. -/
lemma divides_sign {s : Sign} (hs : s ∈ dividers) : Divides s.text := by
  have hall : (dividers.all fun s => " ,;:()[]\x7d".toList.any fun c => s.text.toList == [c]) =
      true := by decide
  obtain ⟨c, hc, htext⟩ := List.any_eq_true.mp (List.all_eq_true.mp hall s hs)
  have htext := beq_iff_eq.mp htext
  intro rest
  rw [htext]
  exact clear_cons hc _

lemma divides_blank : Divides " " := clear_cons (by decide)

/-- Only the front of a text decides whether it divides. -/
lemma Divides.append {a : String} (h : Divides a) (b : String) : Divides (a ++ b) := by
  intro rest
  rw [String.toList_append, List.append_assoc]
  exact h _

/-- The text is cut into these tokens in front of anything that is clear of them, and a sign may
stand in front of it. -/
structure Cut (text : String) (ts : List Token) : Prop where
  yields : ∀ {rest us}, Clear rest → Yields rest us → Yields (text.toList ++ rest) (ts ++ us)
  starts : ∀ (s : Sign) (rest : List Char), (Token.sign s).EndsAt (text.toList ++ rest)

/-- A sign may stand in front of a name or a number. -/
lemma endsAt_of_isNamePart (s : Sign) {c : Char} (hc : isNamePart c = true) (cs : List Char) :
    (Token.sign s).EndsAt (c :: cs) := by
  have hequal : c ≠ '=' := by
    rintro rfl
    cases hc
  have hslash : c ≠ '/' := by
    rintro rfl
    cases hc
  intro d hd
  cases hd
  simp [endsBefore, hequal, hslash]

/-- A word starts like a name, so it needs a blank or a divider in front of it. -/
lemma isNamePart_of_isWord {text : String} (h : isWord text = true) :
    ∃ c cs, text.toList = c :: cs ∧ isNamePart c = true := by
  unfold isWord at h
  split at h
  · cases h
  · next c cs htext => exact ⟨c, cs, htext, isNamePart_of_isNameStart (Bool.and_eq_true_iff.mp h).1⟩

namespace Cut

variable {a b : String} {ts us : List Token}

/-- A single token that starts like a name or a number. -/
lemma of_spelled {t : Token} (ht : Spelled t a)
    (hstart : ∃ c cs, a.toList = c :: cs ∧ isNamePart c = true) :
    Cut a [t] where
  yields := fun hrest h => .token ht (hrest t) h
  starts := fun s rest => by
    obtain ⟨c, cs, hcs, hc⟩ := hstart
    rw [hcs]
    exact endsAt_of_isNamePart s hc _

/-- Keywords are cut as they are spelled. -/
lemma keyword (k : Keyword) : Cut k.text [.keyword k] :=
  of_spelled (.keyword k) (isNamePart_of_isWord (isWord_keyword k))

/-- So are names; no keyword is one. -/
lemma ident {name : String} (h : isName name = true) : Cut name [.ident name] :=
  of_spelled (.ident h) (isNamePart_of_isWord (Bool.and_eq_true_iff.mp h).1)

/-- Two texts are cut one after the other, if the second one divides from the first. -/
lemma append (ha : Cut a ts) (hb : Cut b us) (hdiv : Divides b) : Cut (a ++ b) (ts ++ us) where
  yields := fun hrest h => by
    rw [String.toList_append, List.append_assoc, List.append_assoc]
    exact ha.yields (hdiv _) (hb.yields hrest h)
  starts := fun s rest => by
    rw [String.toList_append, List.append_assoc]
    exact ha.starts s _

/-- A sign stands in front without a blank.  It must not be one that goes on with the sign before
it. -/
lemma sign_append {s : Sign} (hs : s ∉ [.assign, .equal, .slash]) (hb : Cut b us) :
    Cut (s.text ++ b) (.sign s :: us) where
  yields := fun hrest h => by
    rw [String.toList_append, List.append_assoc]
    exact .token (.sign s) (hb.starts s _) (hb.yields hrest h)
  starts := fun o rest => by
    have hfirst : ∃ c cs, s.text.toList = c :: cs ∧ c ≠ '=' ∧ c ≠ '/' := by
      cases s <;> simp [Sign.text] at hs ⊢
    obtain ⟨c, cs, htext, hequal, hslash⟩ := hfirst
    rw [String.toList_append, List.append_assoc, htext]
    intro d hd
    cases hd
    simp [endsBefore, hequal, hslash]

/-- A blank in front adds no token. -/
lemma blank_append (hb : Cut b us) : Cut (" " ++ b) us where
  yields := fun hrest h => by
    rw [String.toList_append, List.append_assoc]
    exact .blank (by decide) (hb.yields hrest h)
  starts := fun s rest => divides_blank.append b rest (.sign s)

/-- A sign that divides may stand at the end. -/
lemma divider {s : Sign} (hs : s ∈ dividers) : Cut s.text [.sign s] where
  yields := fun hrest h => .token (.sign s) (hrest _) h
  starts := fun o rest => divides_sign hs rest (.sign o)

/-- An operator has a blank on either side. -/
lemma operator_append (s : Sign) (hb : Cut b us) :
    Cut (" " ++ (s.text ++ (" " ++ b))) (.sign s :: us) where
  yields := fun hrest h => by
    rw [String.toList_append, String.toList_append, List.append_assoc, List.append_assoc]
    exact .blank (by decide)
      (.token (.sign s) (hb.blank_append.starts s _) (hb.blank_append.yields hrest h))
  starts := fun o rest => divides_blank.append _ rest (.sign o)

/-- Parentheses need no blanks, neither inside nor outside. -/
lemma paren (h : Cut a ts) :
    Cut ("(" ++ (a ++ ")")) (.sign .openParen :: ts ++ [.sign .closeParen]) :=
  @sign_append _ _ .openParen (by decide)
    (h.append (@divider .closeParen (by decide)) (@divides_sign .closeParen (by decide)))

/-- A list of two or more is its first text, a comma, a blank and the rest. -/
lemma commas_cons_cons (a b : String) (texts : List String) :
    commas (a :: b :: texts) = a ++ (Sign.comma.text ++ (" " ++ commas (b :: texts))) := by
  have hcomma : ", " = Sign.comma.text ++ " " := by decide
  rw [commas, String.intercalate_cons_cons, ← commas, String.append_assoc, hcomma,
    String.append_assoc]

/-- Texts between commas, and something after them that divides. -/
lemma commas_append {texts : List String} {tss : List (List Token)} (h : List.Forall₂ Cut texts tss)
    (hb : Cut b us) (hdiv : Divides b) :
    Cut (commas texts ++ b) ([.sign .comma].intercalate tss ++ us) := by
  induction h with
  | nil => exact hb
  | @cons a ts texts tss ha htexts ih =>
      cases htexts with
      | nil =>
          rw [commas, String.intercalate_singleton, List.intercalate_singleton]
          exact ha.append hb hdiv
      | cons =>
          rw [commas_cons_cons, List.intercalate_cons_cons]
          simp only [String.append_assoc, List.append_assoc]
          exact ha.append (sign_append (by decide) ih.blank_append)
            ((divides_sign (by decide)).append _)

end Cut

/-! ## Tokens and what they are read as -/

/-- Whether an expression can start with this token. -/
def opens (t : Token) : Bool :=
  t.atom?.isSome || decide
    (t ∈ [Token.sign .openParen, .sign .openBracket, .sign .openBrace, .sign .bang, .sign .minus,
    .keyword .ifWord, .keyword .fnWord])

end Token

/-- What was read as an expression starts like one. -/
lemma Reads.opens {power : Nat} {e : Expr} {c c' : Cursor} (h : Reads (.expr power e) c c') :
    c.peek.opens = true := by
  cases h with
  | expr hleft _ =>
      cases hleft with
      | atom hatom ht => rw [ht.peek, Token.opens, hatom, Option.isSome_some, Bool.true_or]
      | unary hunary hs _ =>
          rw [hs.peek]
          obtain rfl | rfl := Parser.eq_of_isUnary hunary <;> rfl
      | paren ht => rw [ht.peek]; rfl
      | array ht => rw [ht.peek]; rfl
      | hash ht => rw [ht.peek]; rfl
      | cond ht => rw [ht.peek]; rfl
      | condElse ht => rw [ht.peek]; rfl
      | function ht => rw [ht.peek]; rfl

/-- So what does not start an expression does not come next. -/
lemma Reads.peek_ne {power : Nat} {e : Expr} {c c' : Cursor} (h : Reads (.expr power e) c c')
    {t : Token} (ht : t.opens = false) : c.peek ≠ t := by
  rintro rfl
  rw [h.opens] at ht
  cases ht

/-- An expression up to the end of the text is a program. -/
lemma Reads.ofExpr {e : Expr} {c c' : Cursor} (he : Reads (.expr 0 e) c c')
    (hend : c'.peek = .eof) :
    Reads (.program [.expr e]) c c' := by
  have hsemi : c'.peek ≠ .sign .semicolon := by simp [hend]
  have hstmt : Reads (.stmt (.expr e)) c c' := by
    have := Reads.exprStmt (he.peek_ne rfl) (he.peek_ne rfl) he (by simp [hend])
    rwa [Cursor.skipSemicolon, if_neg hsemi] at this
  exact .stmtInProgram (he.peek_ne rfl) (he.peek_ne rfl) hstmt (.endProgram hend)

/-- A sign that joins nothing ends an expression. -/
lemma Cursor.Passes.stop {c c' : Cursor} {s : Sign} (h : c.Passes (.sign s) c') (hs : s.power = 0)
    (power : Nat) (e : Expr) : Reads (.more power e e) c c := by
  refine .stop fun s' hs' => ?_
  rw [h.peek] at hs'
  cases hs'
  omega

/-- The tokens are read as the expression `e`.  What follows may go on with it; it must not be
needed for an operator that binds as tightly as a call does. -/
def Token.Reading (ts : List Token) (e : Expr) : Prop :=
  ∀ ⦃power : Nat⦄ ⦃c c₁ c₂ : Cursor⦄ ⦃e' : Expr⦄, power < Sign.openParen.power → c.Crosses ts c₁ →
    Reads (.more power e e') c₁ c₂ → Reads (.expr power e') c c₂

namespace Token.Reading

open Cursor

variable {ts us : List Token} {e left right : Expr}

/-- A single token that stands for an expression by itself. -/
lemma atom {t : Token} (ht : t.atom? = some e) : Reading [t] e := by
  rintro power c c₁ c₂ e' - ⟨c₁, hpass, rfl⟩ hmore
  exact .expr (.atom ht hpass) hmore

/-- Parentheses around tokens that are read as `e` in front of the closing one. -/
lemma paren
    (h : ∀ {c c₁ c₂ : Cursor}, c.Crosses ts c₁ → c₁.Passes (.sign .closeParen) c₂ →
      Reads (.expr 0 e) c c₁) :
    Reading (.sign .openParen :: ts ++ [.sign .closeParen]) e := by
  rintro power c c₃ c₄ e' - ⟨c₁, hopen, hcross⟩ hmore
  obtain ⟨c₂, hinner, _, hclose, rfl⟩ := crosses_append.mp hcross
  exact .expr (.paren hopen (h hinner hclose) hclose) hmore

/-- In parentheses an operator takes all of what follows it as its operand. -/
lemma unary {s : Sign} (hs : s.isUnary = true) (hright : Reading ts right) :
    Reading (.sign .openParen :: (.sign s :: ts) ++ [.sign .closeParen]) (.unary s.text right) := by
  refine paren ?_
  rintro c c₁ c₂ ⟨c₀, hpass, hcross⟩ hclose
  have hstop := hclose.stop rfl
  exact .expr (.unary hs hpass (hright (by decide) hcross (hstop _ _))) (hstop _ _)

/-- The parentheses are what keeps the operator from binding to anything outside. -/
lemma binary {s : Sign} (hs : 0 < s.power) (hparen : s ≠ .openParen) (hbracket : s ≠ .openBracket)
    (hleft : Reading ts left) (hright : Reading us right) :
    Reading (.sign .openParen :: (ts ++ .sign s :: us) ++ [.sign .closeParen])
      (.binary s.text left right) := by
  refine paren ?_
  intro c c₁ c₂ hcross hclose
  obtain ⟨c₃, hl, c₄, hpass, hr⟩ := crosses_append.mp hcross
  have hstop := hclose.stop rfl
  have hpower : s.power < Sign.openParen.power := by cases s <;> simp_all [Sign.power]
  exact hleft (by decide) hl
    (.binary hs hparen hbracket hpass (hright hpower hr (hstop _ _)) (hstop _ _))

/-- An index stands behind what is indexed, and both are in parentheses. -/
lemma index (hleft : Reading ts left) (hright : Reading us right) :
    Reading (.sign .openParen :: (ts ++ .sign .openBracket :: (us ++ [.sign .closeBracket])) ++
      [.sign .closeParen])
      (.index left right) := by
  refine paren ?_
  intro c c₁ c₂ hcross hclose
  obtain ⟨c₃, hl, c₄, hopen, hrest⟩ := crosses_append.mp hcross
  obtain ⟨c₅, hr, _, hend, rfl⟩ := crosses_append.mp hrest
  exact hleft (by decide) hl
    (.index (by decide) hopen (hright (by decide) hr (hend.stop rfl _ _)) hend
      (hclose.stop rfl _ _))

/-! ### Lists -/

/-- Expressions between commas and the sign that closes their list. -/
lemma items {close : Sign} (hpower : close.power = 0) (hcomma : close ≠ .comma) {es : List Expr}
    {tss : List (List Token)} (h : List.Forall₂ Reading tss es) (hne : es ≠ []) {c c' : Cursor}
    (hcross : c.Crosses ([.sign .comma].intercalate tss ++ [.sign close]) c') :
    Reads (.items close es) c c' := by
  induction h generalizing c with
  | nil => exact absurd rfl hne
  | @cons ts e tss es he hes ih =>
      cases hes with
      | nil =>
          rw [List.intercalate_singleton] at hcross
          obtain ⟨c₁, hc, _, hclose, rfl⟩ := crosses_append.mp hcross
          refine .lastItem (he (by decide) hc (hclose.stop hpower _ _)) ?_ hclose
          rw [hclose.peek]
          simpa using hcomma
      | cons =>
          rw [List.intercalate_cons_cons, List.append_assoc, List.append_assoc] at hcross
          obtain ⟨c₁, hc, c₂, hpass, hrest⟩ := crosses_append.mp hcross
          exact .nextItem (he (by decide) hc (hpass.stop rfl _ _)) hpass (ih (by simp) hrest)

/-- A list that is not empty starts like an expression, so it is not read as the empty one. -/
lemma opens_of_items {close : Sign} {es : List Expr} {c c' : Cursor}
    (h : Reads (.items close es) c c') :
    c.peek.opens = true := by
  cases h with
  | lastItem he => exact he.opens
  | nextItem he => exact he.opens

/-- A list may also be empty, and then only the closing sign is passed. -/
lemma list {close : Sign} (hclose : close = .closeParen ∨ close = .closeBracket) {es : List Expr}
    {tss : List (List Token)} (h : List.Forall₂ Reading tss es) {c c' : Cursor}
    (hcross : c.Crosses ([.sign .comma].intercalate tss ++ [.sign close]) c') :
    Reads (.list close es) c c' := by
  have hends : close.power = 0 ∧ close ≠ .comma ∧ (Token.sign close).opens = false := by
    rcases hclose with rfl | rfl <;> decide
  obtain ⟨hpower, hcomma, hopens⟩ := hends
  by_cases hne : es = []
  · subst hne
    cases h
    obtain ⟨_, hpass, rfl⟩ := hcross
    exact .noItems hpass
  · have hitems := items hpower hcomma h hne hcross
    refine .someItems (fun hpeek => ?_) hitems
    have hopen := opens_of_items hitems
    rw [hpeek, hopens] at hopen
    cases hopen

/-- Brackets around a list are read as an array. -/
lemma array {es : List Expr} {tss : List (List Token)} (h : List.Forall₂ Reading tss es) :
    Reading (.sign .openBracket :: ([.sign .comma].intercalate tss ++ [.sign .closeBracket]))
      (.array es) := by
  rintro power c c₂ c₃ e' - ⟨c₁, hopen, hcross⟩ hmore
  exact .expr (.array hopen (list (.inr rfl) h hcross)) hmore

/-- Arguments in parentheses are taken by the callee right before them. -/
lemma call {callee : Expr} (hcallee : Reading ts callee) {args : List Expr}
    {tss : List (List Token)} (h : List.Forall₂ Reading tss args) :
    Reading (ts ++ .sign .openParen :: ([.sign .comma].intercalate tss ++ [.sign .closeParen]))
      (.call callee args) := by
  intro power c c₃ c₄ e' hpower hcross hmore
  obtain ⟨c₁, hc, c₂, hopen, hargs⟩ := crosses_append.mp hcross
  exact hcallee hpower hc (.call hpower hopen (list (.inl rfl) h hargs) hmore)

/-- A key, a colon and a value. -/
def OfPair (ts : List Token) (p : Expr × Expr) : Prop :=
  ∃ ks vs, ts = ks ++ .sign .colon :: vs ∧ Reading ks p.1 ∧ Reading vs p.2

/-- Pairs between commas, up to the closing brace. -/
lemma pairs {ps : List (Expr × Expr)} {tss : List (List Token)} (h : List.Forall₂ OfPair tss ps)
    {c c' : Cursor}
    (hcross : c.Crosses ([.sign .comma].intercalate tss ++ [.sign .closeBrace]) c') :
    Reads (.pairs ps) c c' := by
  induction h generalizing c with
  | nil =>
      obtain ⟨_, hclose, rfl⟩ := hcross
      exact .noPairs hclose
  | @cons ts p tss ps hp hps ih =>
      obtain ⟨ks, vs, rfl, hkey, hvalue⟩ := hp
      cases hps with
      | nil =>
          rw [List.intercalate_singleton, List.append_assoc] at hcross
          obtain ⟨c₁, hk, c₂, hcolon, hrest⟩ := crosses_append.mp hcross
          obtain ⟨c₃, hv, _, hclose, rfl⟩ := crosses_append.mp hrest
          have hkey := hkey (by decide) hk (hcolon.stop rfl 0 _)
          exact .lastPair (hkey.peek_ne rfl) hkey hcolon
            (hvalue (by decide) hv (hclose.stop rfl _ _)) hclose
      | cons =>
          rw [List.intercalate_cons_cons, List.append_assoc, List.append_assoc,
            List.append_assoc] at hcross
          obtain ⟨c₁, hk, c₂, hcolon, hrest⟩ := crosses_append.mp hcross
          obtain ⟨c₃, hv, c₄, hcomma, hmore⟩ := crosses_append.mp hrest
          have hkey := hkey (by decide) hk (hcolon.stop rfl 0 _)
          exact .nextPair (hkey.peek_ne rfl) hkey hcolon
            (hvalue (by decide) hv (hcomma.stop rfl _ _)) hcomma (ih hmore)

/-- Braces around pairs are read as a hash. -/
lemma hash {ps : List (Expr × Expr)} {tss : List (List Token)} (h : List.Forall₂ OfPair tss ps) :
    Reading (.sign .openBrace :: ([.sign .comma].intercalate tss ++ [.sign .closeBrace]))
      (.hash ps) := by
  rintro power c c₂ c₃ e' - ⟨c₁, hopen, hcross⟩ hmore
  exact .expr (.hash hopen (pairs h hcross)) hmore

end Token.Reading

/-! ## Plain trees -/

/-- An expression without fractions, strings, functions and conditionals.  Names can be written,
integers are not negative, and the operators are those of the language. -/
inductive Expr.Plain : Expr → Prop where
  | ident {name : String} (h : Token.isName name = true) : Plain (.ident name)
  | integer {n : Int64} (h : 0 ≤ n.toInt) : Plain (.integer n)
  | boolean (b : Bool) : Plain (.boolean b)
  | nil : Plain .nil
  | array {items : List Expr} (h : ∀ e ∈ items, Plain e) : Plain (.array items)
  | hash {pairs : List (Expr × Expr)} (hkeys : ∀ p ∈ pairs, Plain p.1)
      (hvalues : ∀ p ∈ pairs, Plain p.2) :
      Plain (.hash pairs)
  | unary {op : String} {right : Expr} (hop : op ∈ ["-", "!"]) (h : Plain right) :
      Plain (.unary op right)
  | binary {op : String} {left right : Expr}
      (hop : op ∈ ["+", "-", "*", "/", "==", "!=", "<", ">", "<=", ">=", "&&", "||"])
      (hleft : Plain left)
      (hright : Plain right) : Plain (.binary op left right)
  | index {left index : Expr} (hleft : Plain left) (hindex : Plain index) :
      Plain (.index left index)
  | call {callee : Expr} {args : List Expr} (hcallee : Plain callee) (hargs : ∀ e ∈ args, Plain e) :
      Plain (.call callee args)

/-- Plain definitions, assignments and returns, and at most one expression, at the end. -/
inductive Program.Plain : Program → Prop where
  | nil : Plain []
  | expr {e : Expr} (he : e.Plain) : Plain [.expr e]
  | define {name : String} {value : Expr} {p : Program} (hname : Token.isName name = true)
      (hvalue : value.Plain)
      (hp : Plain p) : Plain (.define name value :: p)
  | assign {target value : Expr} {p : Program} (htarget : target.Plain) (hvalue : value.Plain)
      (hp : Plain p) :
      Plain (.assign target value :: p)
  | ret {value : Expr} {p : Program} (hvalue : value.Plain) (hp : Plain p) : Plain (.ret value :: p)

/-- The tokens spell the expression: its text is cut into them, and they are read as the
expression. -/
structure Token.Spelling (ts : List Token) (e : Expr) : Prop where
  cut : Token.Cut e.text ts
  reading : Token.Reading ts e

namespace Token

/-- The digits of a number that is not negative start like a name; a sign would not. -/
lemma isNamePart_of_nonneg {n : Int64} (h : 0 ≤ n.toInt) :
    ∃ c cs, (Token.integer n).text.toList = c :: cs ∧ isNamePart c = true := by
  obtain ⟨k, hk, -, hfits⟩ := exists_of_nonneg h
  obtain ⟨c, cs, hcs, -⟩ := @scan_decimal k hfits [] (by simp)
  have hdigit : c.isDigit = true :=
    Nat.isDigit_of_mem_toDigits (by decide) (Nat.le_refl 10) (hcs ▸ List.mem_cons_self)
  refine ⟨c, cs, ?_, isNamePart_of_isHexDigit (by simp [isHexDigit, hdigit])⟩
  rw [toList_text_integer hk, hcs]

namespace Spelling

lemma ident {name : String} (h : isName name = true) : Spelling [.ident name] (.ident name) :=
  ⟨.ident h, .atom rfl⟩

lemma integer {n : Int64} (h : 0 ≤ n.toInt) : Spelling [.integer n] (.integer n) :=
  ⟨.of_spelled (.decimal h) (isNamePart_of_nonneg h), .atom rfl⟩

/-- A keyword that is an expression on its own. -/
lemma keyword {k : Keyword} {e : Expr} (he : (Token.keyword k).atom? = some e)
    (htext : e.text = k.text) :
    Spelling [.keyword k] e := by
  refine ⟨?_, .atom he⟩
  rw [htext]
  exact .keyword k

variable {ts us : List Token} {left right : Expr}

/-- An operator in front of an operand is spelled if the operand is. -/
lemma unary {op : String} (hop : op ∈ ["-", "!"]) (h : Spelling ts right) :
    ∃ us, Spelling us (.unary op right) := by
  have hall : ∀ op ∈ ["-", "!"], ∃ s ∈ Sign.all, s.text = op ∧ s.isUnary = true ∧
      s ∉ [.assign, .equal, .slash] := by
    decide
  obtain ⟨s, -, rfl, hs, htight⟩ := hall op hop
  refine ⟨_, ?_, .unary hs h.reading⟩
  have htext : (Expr.unary s.text right).text = "(" ++ ((s.text ++ right.text) ++ ")") := by
    simp only [Expr.text, String.append_assoc]
  rw [htext]
  exact .paren (.sign_append htight h.cut)

/-- An operator between operands is spelled if both are. -/
lemma binary {op : String}
    (hop : op ∈ ["+", "-", "*", "/", "==", "!=", "<", ">", "<=", ">=", "&&", "||"])
    (hleft : Spelling ts left) (hright : Spelling us right) :
    ∃ vs, Spelling vs (.binary op left right) := by
  have hall : ∀ op ∈ ["+", "-", "*", "/", "==", "!=", "<", ">", "<=", ">=", "&&", "||"],
      ∃ s ∈ Sign.all, s.text = op ∧ 0 < s.power ∧ s ≠ .openParen ∧ s ≠ .openBracket := by
    decide
  obtain ⟨s, -, rfl, hpower, hparen, hbracket⟩ := hall op hop
  refine ⟨_, ?_, .binary hpower hparen hbracket hleft.reading hright.reading⟩
  have htext : (Expr.binary s.text left right).text =
      "(" ++ ((left.text ++ (" " ++ (s.text ++ (" " ++ right.text)))) ++ ")") := by
    simp only [Expr.text, String.append_assoc]
  rw [htext]
  exact .paren (hleft.cut.append (.operator_append s hright.cut) (divides_blank.append _))

/-- An index is spelled in parentheses, with brackets around its second part. -/
lemma index (hleft : Spelling ts left) (hright : Spelling us right) :
    ∃ vs, Spelling vs (.index left right) := by
  refine ⟨_, ?_, .index hleft.reading hright.reading⟩
  have htext : (Expr.index left right).text =
      "(" ++ ((left.text ++ (Sign.openBracket.text ++ (right.text ++ Sign.closeBracket.text))) ++
        ")") := by
    have hclose : "])" = Sign.closeBracket.text ++ ")" := by decide
    simp only [Expr.text, hclose, String.append_assoc]
    rfl
  have hindex :=
    hright.cut.append (.divider (by decide)) (divides_sign (s := .closeBracket) (by decide))
  rw [htext]
  exact .paren
    (hleft.cut.append (.sign_append (by decide) hindex) ((divides_sign (by decide)).append _))

/-- Texts between commas that a sign opens and another one closes. -/
lemma cut_list {o close : Sign} (ho : o ∉ [.assign, .equal, .slash]) (hclose : close ∈ dividers)
    {texts : List String} {tss : List (List Token)} (h : List.Forall₂ Cut texts tss) :
    Cut (o.text ++ (commas texts ++ close.text))
      (.sign o :: ([.sign .comma].intercalate tss ++ [.sign close])) :=
  .sign_append ho (.commas_append h (.divider hclose) (divides_sign hclose))

/-- Of things that are spelled, the texts are cut. -/
lemma cut_texts {es : List Expr} {tss : List (List Token)} (h : List.Forall₂ Spelling tss es) :
    List.Forall₂ Cut (Expr.texts es) tss := by
  induction h with
  | nil => exact .nil
  | cons he _ ih => exact .cons he.cut ih

/-- And their tokens are read as them. -/
lemma forall₂_reading {es : List Expr} {tss : List (List Token)}
    (h : List.Forall₂ Spelling tss es) :
    List.Forall₂ Reading tss es :=
  h.imp fun _ _ he => he.reading

/-- An array is spelled by the spellings of its items. -/
lemma array {es : List Expr} {tss : List (List Token)} (h : List.Forall₂ Spelling tss es) :
    ∃ ts, Spelling ts (.array es) := by
  refine ⟨_, ?_, .array (forall₂_reading h)⟩
  rw [Expr.text, String.append_assoc]
  exact @cut_list .openBracket .closeBracket (by decide) (by decide) _ _ (cut_texts h)

/-- A call is spelled by those of the callee and the arguments. -/
lemma call {callee : Expr} (hcallee : Spelling ts callee) {args : List Expr}
    {tss : List (List Token)} (h : List.Forall₂ Spelling tss args) :
    ∃ us, Spelling us (.call callee args) := by
  refine ⟨_, ?_, .call hcallee.reading (forall₂_reading h)⟩
  have hargs := @cut_list .openParen .closeParen (by decide) (by decide) _ _ (cut_texts h)
  rw [Expr.text, String.append_assoc, String.append_assoc]
  exact hcallee.cut.append hargs ((@divides_sign .openParen (by decide)).append _)

/-- A hash is spelled by those of its keys and values, pair by pair. -/
lemma hash {ps : List (Expr × Expr)} (hkeys : ∀ p ∈ ps, ∃ ts, Spelling ts p.1)
    (hvalues : ∀ p ∈ ps, ∃ ts, Spelling ts p.2) : ∃ ts, Spelling ts (.hash ps) := by
  have hpairs : ∃ tss, List.Forall₂ Cut (Expr.pairTexts ps) tss ∧
      List.Forall₂ Reading.OfPair tss ps := by
    induction ps with
    | nil => exact ⟨[], .nil, .nil⟩
    | cons p ps ih =>
        obtain ⟨⟨ks, hk⟩, hkeys⟩ := List.forall_mem_cons.mp hkeys
        obtain ⟨⟨vs, hv⟩, hvalues⟩ := List.forall_mem_cons.mp hvalues
        obtain ⟨tss, hcuts, hreadings⟩ := ih hkeys hvalues
        have hcut : Cut (p.1.text ++ ":" ++ p.2.text) (ks ++ .sign .colon :: vs) := by
          rw [String.append_assoc]
          exact hk.cut.append (@Cut.sign_append _ _ .colon (by decide) hv.cut)
            ((@divides_sign .colon (by decide)).append _)
        exact ⟨_, .cons hcut hcuts, .cons ⟨ks, vs, rfl, hk.reading, hv.reading⟩ hreadings⟩
  obtain ⟨tss, hcuts, hreadings⟩ := hpairs
  refine ⟨_, ?_, .hash hreadings⟩
  rw [Expr.text, String.append_assoc]
  exact @cut_list .openBrace .closeBrace (by decide) (by decide) _ _ hcuts

end Spelling

end Token

/-- Things with something each have a list of it. -/
lemma exists_forall₂ {α β : Type} {P : α → β → Prop} {bs : List β} (h : ∀ b ∈ bs, ∃ a, P a b) :
    ∃ as, List.Forall₂ P as bs := by
  induction bs with
  | nil => exact ⟨[], .nil⟩
  | cons b bs ih =>
      obtain ⟨⟨a, ha⟩, hbs⟩ := List.forall_mem_cons.mp h
      obtain ⟨as, has⟩ := ih hbs
      exact ⟨a :: as, .cons ha has⟩

/-- **Every plain expression is spelled by tokens,** into which its text is cut and which are read
as the expression. -/
theorem Expr.Plain.exists_spelling {e : Expr} (h : e.Plain) : ∃ ts, Token.Spelling ts e := by
  induction h with
  | ident h => exact ⟨_, .ident h⟩
  | integer h => exact ⟨_, .integer h⟩
  | boolean b =>
      cases b with
      | true => exact ⟨_, @Token.Spelling.keyword .trueWord _ rfl rfl⟩
      | false => exact ⟨_, @Token.Spelling.keyword .falseWord _ rfl rfl⟩
  | nil => exact ⟨_, @Token.Spelling.keyword .nilWord _ rfl rfl⟩
  | array _ ih =>
      obtain ⟨tss, h⟩ := exists_forall₂ ih
      exact Token.Spelling.array h
  | hash _ _ ihkeys ihvalues => exact Token.Spelling.hash ihkeys ihvalues
  | unary hop _ ih =>
      obtain ⟨ts, h⟩ := ih
      exact h.unary hop
  | binary hop _ _ ihleft ihright =>
      obtain ⟨ts, hleft⟩ := ihleft
      obtain ⟨us, hright⟩ := ihright
      exact hleft.binary hop hright
  | index _ _ ihleft ihindex =>
      obtain ⟨ts, hleft⟩ := ihleft
      obtain ⟨us, hindex⟩ := ihindex
      exact hleft.index hindex
  | call _ _ ihcallee ihargs =>
      obtain ⟨ts, hcallee⟩ := ihcallee
      obtain ⟨tss, hargs⟩ := exists_forall₂ ihargs
      exact hcallee.call hargs

/-! ## Programs -/

/-- A plain expression is no function that a binding could name. -/
lemma Expr.Plain.named {e : Expr} (h : e.Plain) (name : String) : e.named name = e := by
  cases h <;> rfl

/-- Nor is it one that an assignment could name. -/
lemma Expr.Plain.assignedTo {e : Expr} (h : e.Plain) (target : Expr) : target.assignedTo e = e := by
  unfold Expr.assignedTo
  split
  · exact h.named _
  · rfl

lemma Cursor.Passes.skipSemicolon {c c' : Cursor} (h : c.Passes (.sign .semicolon) c') :
    c.skipSemicolon = c' := by
  rw [Cursor.skipSemicolon, if_pos h.peek, h.next]

/-- The tokens spell the program up to the end of the text. -/
structure Token.ProgramSpelling (ts : List Token) (p : Program) : Prop where
  yields : Token.Yields p.text.toList ts
  starts : ∀ s : Sign, (Token.sign s).EndsAt p.text.toList
  reads : ∀ ⦃c c' : Cursor⦄, c.Crosses ts c' → c'.peek = .eof → Reads (.program p) c c'

namespace Token.ProgramSpelling

open Cursor

variable {ts us : List Token} {p : Program}

lemma text_cons (s : Stmt) (p : Program) : Program.text (s :: p) = s.text ++ p.text :=
  String.join_cons

lemma nil : ProgramSpelling [] [] where
  yields := .nil
  starts := fun s => clear_nil (.sign s)
  reads := by
    rintro c c' rfl hend
    exact .endProgram hend

/-- At the end an expression stands without a semicolon. -/
lemma expr {e : Expr} (h : Spelling ts e) : ProgramSpelling ts [.expr e] := by
  have htext : Program.text [.expr e] = e.text := by
    rw [text_cons]
    exact String.append_empty
  refine ⟨?_, fun s => ?_, ?_⟩
  · have hy := h.cut.yields clear_nil .nil
    rwa [List.append_nil, List.append_nil, ← htext] at hy
  · have hs := h.cut.starts s []
    rwa [List.append_nil, ← htext] at hs
  · intro c c' hcross hend
    exact .ofExpr (h.reading (by decide) hcross (.stop fun s hs => by simp [hend] at hs)) hend

/-- A statement in front that ends in a semicolon. -/
lemma stmt {s : Stmt} {body : String} (htext : s.text = body ++ ";") (hcut : Cut body ts)
    (hreads : ∀ ⦃c c₁ c₂ : Cursor⦄, c.Crosses ts c₁ → c₁.Passes (.sign .semicolon) c₂ →
      Reads (.stmt s) c c₂ ∧ c.peek ≠ .eof ∧ c.peek ≠ .sign .semicolon)
    (h : ProgramSpelling us p) : ProgramSpelling (ts ++ .sign .semicolon :: us) (s :: p) := by
  have hchars : (Program.text (s :: p)).toList = body.toList ++
      (Sign.semicolon.text.toList ++ p.text.toList) := by
    rw [text_cons, htext, String.toList_append, String.toList_append, List.append_assoc]
    rfl
  refine ⟨?_, fun o => ?_, fun c c' hcross hend => ?_⟩
  · rw [hchars]
    exact hcut.yields (divides_sign (by decide) _) (.token (.sign .semicolon) (h.starts _) h.yields)
  · rw [hchars]
    exact hcut.starts o _
  · obtain ⟨c₁, hs, c₂, hsemi, hp⟩ := crosses_append.mp hcross
    obtain ⟨hstmt, hmore, hskip⟩ := hreads hs hsemi
    exact .stmtInProgram hmore hskip hstmt (h.reads hp hend)

/-- A definition in front of a program that is spelled. -/
lemma define {name : String} {value : Expr} (hname : isName name = true) (hvalue : value.Plain)
    (h : ProgramSpelling us p) : ∃ ts, ProgramSpelling ts (.define name value :: p) := by
  obtain ⟨ts, hts⟩ := hvalue.exists_spelling
  have htext : (Stmt.define name value).text =
      Keyword.letWord.text ++
      (" " ++ (name ++ (" " ++ (Sign.assign.text ++ (" " ++ value.text))))) ++ ";" := by
    have hlet : "let " = Keyword.letWord.text ++ " " := by decide
    have hassign : " = " = " " ++ (Sign.assign.text ++ " ") := by decide
    simp only [Stmt.text, hlet, hassign, String.append_assoc]
  have hbinding :=
    (Cut.ident hname).append (.operator_append .assign hts.cut) (divides_blank.append _)
  refine ⟨_, stmt htext
    ((Cut.keyword .letWord).append hbinding.blank_append (divides_blank.append _)) ?_ h⟩
  rintro c c₄ c₅ ⟨c₁, hlet, c₂, hn, c₃, hassign, hcross⟩ hsemi
  have hstmt := Reads.define hlet hn hassign (hts.reading (by decide) hcross (hsemi.stop rfl _ _))
  rw [hvalue.named, hsemi.skipSemicolon] at hstmt
  exact ⟨hstmt, hlet.peek_ne_eof, by simp [hlet.peek]⟩

/-- An assignment in front of a program that is spelled. -/
lemma assign {target value : Expr} (htarget : target.Plain) (hvalue : value.Plain)
    (h : ProgramSpelling us p) :
    ∃ ts, ProgramSpelling ts (.assign target value :: p) := by
  obtain ⟨vs, hvs⟩ := htarget.exists_spelling
  obtain ⟨ts, hts⟩ := hvalue.exists_spelling
  have htext : (Stmt.assign target value).text =
      target.text ++ (" " ++ (Sign.assign.text ++ (" " ++ value.text))) ++ ";" := by
    have hassign : " = " = " " ++ (Sign.assign.text ++ " ") := by decide
    simp only [Stmt.text, hassign, String.append_assoc]
  refine ⟨_, stmt htext
    (hvs.cut.append (.operator_append .assign hts.cut) (divides_blank.append _)) ?_ h⟩
  intro c c₃ c₄ hcross hsemi
  obtain ⟨c₁, hl, c₂, hassign, hr⟩ := crosses_append.mp hcross
  have hread := hvs.reading (by decide) hl (hassign.stop rfl 0 _)
  have hstmt := Reads.assign (hread.peek_ne rfl) (hread.peek_ne rfl) hread hassign
    (hts.reading (by decide) hr (hsemi.stop rfl _ _))
  rw [hvalue.assignedTo, hsemi.skipSemicolon] at hstmt
  exact ⟨hstmt, hread.peek_ne rfl, hread.peek_ne rfl⟩

/-- A return in front of a program that is spelled. -/
lemma ret {value : Expr} (hvalue : value.Plain) (h : ProgramSpelling us p) :
    ∃ ts, ProgramSpelling ts (.ret value :: p) := by
  obtain ⟨ts, hts⟩ := hvalue.exists_spelling
  have htext : (Stmt.ret value).text = Keyword.returnWord.text ++ (" " ++ value.text) ++ ";" := by
    have hreturn : "return " = Keyword.returnWord.text ++ " " := by decide
    simp only [Stmt.text, hreturn, String.append_assoc]
  refine ⟨_, stmt htext
    ((Cut.keyword .returnWord).append hts.cut.blank_append (divides_blank.append _)) ?_ h⟩
  rintro c c₂ c₃ ⟨c₁, hreturn, hcross⟩ hsemi
  have hstmt := Reads.ret hreturn (hts.reading (by decide) hcross (hsemi.stop rfl _ _))
  rw [hsemi.skipSemicolon] at hstmt
  exact ⟨hstmt, hreturn.peek_ne_eof, by simp [hreturn.peek]⟩

end Token.ProgramSpelling

/-- Every plain program is spelled by tokens. -/
theorem Program.Plain.exists_spelling {p : Program} (h : p.Plain) :
    ∃ ts, Token.ProgramSpelling ts p := by
  induction h with
  | nil => exact ⟨_, .nil⟩
  | expr he =>
      obtain ⟨ts, hts⟩ := he.exists_spelling
      exact ⟨ts, .expr hts⟩
  | define hname hvalue _ ih =>
      obtain ⟨us, hus⟩ := ih
      exact hus.define hname hvalue
  | assign htarget hvalue _ ih =>
      obtain ⟨us, hus⟩ := ih
      exact hus.assign htarget hvalue
  | ret hvalue _ ih =>
      obtain ⟨us, hus⟩ := ih
      exact hus.ret hvalue

/-- Written tokens are neither comments nor the end of the text. -/
lemma Token.Yields.ne_eof {cs : List Char} {ts : List Token} (h : Token.Yields cs ts) :
    ∀ t ∈ ts, t ≠ .eof ∧ t.isComment = false := by
  induction h with
  | nil => simp
  | blank _ _ ih => exact ih
  | token ht _ _ ih => exact List.forall_mem_cons.mpr ⟨by cases ht <;> exact ⟨by simp, rfl⟩, ih⟩

/-- Where all tokens are written, the cursor before the first has all lexemes ahead. -/
lemma Cursor.ofLexemes_eq {ls : List Lexeme} {ts : List Token}
    (hls : ls.map Lexeme.token = ts ++ [.eof]) (hts : ∀ t ∈ ts, t ≠ .eof ∧ t.isComment = false) :
    Cursor.ofLexemes ls = ⟨ls, Pos.start⟩ := by
  have hall : ∀ l ∈ ls, (!l.token.isComment) = true := by
    intro l hl
    have hmem : l.token ∈ ts ++ [.eof] := hls ▸ List.mem_map_of_mem hl
    rcases List.mem_append.mp hmem with hmem | hmem
    · rw [(hts _ hmem).2]
      rfl
    · rw [List.mem_singleton.mp hmem]
      rfl
  rw [Cursor.ofLexemes, List.filter_eq_self.mpr hall]

/-- **The canonical text is parsed back:** of a plain program it is a program, and that one. -/
theorem Program.ofText_text {p : Program} (h : p.Plain) : Program.ofText p.text = .ok p := by
  obtain ⟨ts, hspell⟩ := h.exists_spelling
  obtain ⟨ls, hlex, hls⟩ := hspell.yields.lex
  have hts := hspell.yields.ne_eof
  obtain ⟨c, hcross, hend⟩ := Cursor.exists_crosses hls (fun t ht => (hts t ht).1) Pos.start
  rw [← Cursor.ofLexemes_eq hls hts] at hcross
  have hparse := Program.ofLexemes_of_reads (hspell.reads hcross hend)
  rw [Program.ofText, hlex]
  simp only [hparse]

/-- A hash with a call of a number as its key, an assignment to a call, operators of each kind
inside each other and a name that starts like a keyword. -/
def tangled : Program :=
  [.define "lets"
    (.hash [(.call (.unary "-" (.integer 1)) [.nil], .array []), (.boolean true, .hash [])]),
    .assign
      (.call (.index (.ident "lets") (.integer 0)) [.ident "lets", .array [.nil, .boolean false]])
      (.integer 9223372036854775807),
    .ret (.binary "!=" (.unary "!" (.ident "lets"))
      (.binary "/" (.integer 7) (.index (.hash []) (.nil)))),
    .expr (.call (.ident "lets") [])]

/-- The canonical text of the tangled program is parsed back to it. -/
theorem tangled_parsed_back :
    Program.Plain tangled ∧ Program.ofText (Program.text tangled) = .ok tangled := by
  have hname : Expr.Plain (.ident "lets") := .ident (by decide +kernel)
  have hempty : Expr.Plain (.hash []) := .hash (by simp) (by simp)
  have hkey : Expr.Plain (.call (.unary "-" (.integer 1)) [.nil]) :=
    .call (.unary (by decide) (.integer (by decide))) (by simpa using .nil)
  have hhash : Expr.Plain
      (.hash [(.call (.unary "-" (.integer 1)) [.nil], .array []), (.boolean true, .hash [])]) :=
    .hash (by simpa using ⟨hkey, .boolean true⟩) (by simpa using ⟨.array (by simp), hempty⟩)
  have htarget : Expr.Plain (.call (.index (.ident "lets") (.integer 0))
      [.ident "lets", .array [.nil, .boolean false]]) :=
    .call (.index hname (.integer (by decide)))
      (by simpa using ⟨hname, .array (by simpa using ⟨.nil, .boolean false⟩)⟩)
  have hvalue : Expr.Plain
      (.binary "!=" (.unary "!" (.ident "lets"))
        (.binary "/" (.integer 7) (.index (.hash []) (.nil)))) :=
    .binary (by decide) (.unary (by decide) hname)
      (.binary (by decide) (.integer (by decide)) (.index hempty .nil))
  have hplain : Program.Plain tangled :=
    .define (by decide +kernel) hhash
      (.assign htarget (.integer (by decide)) (.ret hvalue (.expr (.call hname (by simp)))))
  exact ⟨hplain, Program.ofText_text hplain⟩

end Marmoset
