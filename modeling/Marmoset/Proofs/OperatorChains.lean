import Marmoset.Proofs.CanonicalText
import Marmoset.Proofs.TokenYield

/-!
# How operators group

The parser reads an operand and then goes on as long as an operator follows that binds tightly
enough, which it finds out with a number that changes from call to call.  What comes of this can be
said without the numbers: the tree groups by precedence, and to the left among operators of the same
precedence.

* `OperatorChain` — operands with binary operators between them; an operand is a single token behind
  unary operators.
* `Expr.InOrder` — the tokens of a tree of operators, in order.
* `Expr.Grouped` — no operator has an operand that binds too loosely for its place.
* **`Expr.InOrder.reads`** — the parser reads the tokens of a grouped tree as this tree.  So there
  is no second grouped tree with the same tokens.
* `Expr.attach`, `OperatorChain.exists_tree` — there is one: an operator with its right operand is
  added at the right edge of a tree, below the operators there that bind more loosely.
* **`Program.ofLexemes_operatorChain`** — a chain is parsed to the one tree that has its tokens and
  is grouped.
-/

namespace Marmoset

/-! ## Chains -/

/-- The signs that can stand between two expressions as an operator. -/
def Sign.binary : List Sign :=
  [.either, .both, .equal, .notEqual, .less, .greater, .lessEqual, .greaterEqual, .plus, .minus,
    .star, .slash]

/-- An operator between operands binds, and less tightly than one in front. -/
lemma Sign.power_of_mem_binary {s : Sign} (h : s ∈ Sign.binary) :
    0 < s.power ∧ s.power < Sign.unaryPower := by
  have hall : ∀ s ∈ Sign.binary, 0 < s.power ∧ s.power < Sign.unaryPower := by decide
  exact hall s h

/-- Any number of unary operators, and a token that is an expression on its own. -/
structure OperandRow where
  signs : List Sign
  atom : Token
  unary : ∀ s ∈ signs, s.isUnary = true
  single : atom.atom?.isSome = true

def OperandRow.tokens (u : OperandRow) : List Token :=
  u.signs.map .sign ++ [u.atom]

/-- An operand, and more of them with an operator in front of each. -/
structure OperatorChain where
  first : OperandRow
  rest : List ({ s : Sign // s ∈ Sign.binary } × OperandRow)

def OperatorChain.tokens (c : OperatorChain) : List Token :=
  c.first.tokens ++ c.rest.flatMap fun p => .sign p.1 :: p.2.tokens

/-- Operands and operators take turns; the next token belongs to an operand if `operand` is true. -/
inductive TakesTurns : (operand : Bool) → List Token → Prop where
  | done : TakesTurns false []
  | atom {t : Token} {ts : List Token} (h : t.atom?.isSome = true) (hts : TakesTurns false ts) :
      TakesTurns true (t :: ts)
  | unary {s : Sign} {ts : List Token} (h : s.isUnary = true) (hts : TakesTurns true ts) :
      TakesTurns true (.sign s :: ts)
  | binary {s : Sign} {ts : List Token} (h : s ∈ Sign.binary) (hts : TakesTurns true ts) :
      TakesTurns false (.sign s :: ts)

namespace TakesTurns

variable {s : Sign} {t : Token} {ts : List Token}

/-- Where an operand is next a sign is an operator in front of it. -/
lemma of_unary (h : TakesTurns true (.sign s :: ts)) : s.isUnary = true ∧ TakesTurns true ts := by
  cases h with
  | atom h => cases h
  | unary h hts => exact ⟨h, hts⟩

/-- Behind a token that is an operand an operator is next. -/
lemma of_atom {e : Expr} (ht : t.atom? = some e) (h : TakesTurns true (t :: ts)) :
    TakesTurns false ts := by
  cases h with
  | atom _ hts => exact hts
  | unary _ _ => cases ht

/-- Where an operator is next a sign is one. -/
lemma of_binary (h : TakesTurns false (.sign s :: ts)) : s ∈ Sign.binary ∧ TakesTurns true ts := by
  cases h with
  | binary h hts => exact ⟨h, hts⟩

/-- Chains contain no comments and do not end the text. -/
lemma plain {operand : Bool} (h : TakesTurns operand ts) :
    ∀ t ∈ ts, t ≠ .eof ∧ t.isComment = false := by
  induction h with
  | done => simp
  | @atom t ts h _ ih =>
      refine List.forall_mem_cons.mpr ⟨⟨?_, ?_⟩, ih⟩
      · rintro rfl
        cases h
      · cases t with
        | comment _ => cases h
        | _ => rfl
  | unary _ _ ih | binary _ _ ih => exact List.forall_mem_cons.mpr ⟨by simp [Token.isComment], ih⟩

end TakesTurns

/-- Behind an operand the turns go on. -/
lemma OperandRow.takesTurns (u : OperandRow) {ts : List Token} (hts : TakesTurns false ts) :
    TakesTurns true (u.tokens ++ ts) := by
  obtain ⟨signs, atom, hunary, hsingle⟩ := u
  show TakesTurns true (signs.map .sign ++ [atom] ++ ts)
  induction signs with
  | nil => exact .atom hsingle hts
  | cons s signs ih =>
      obtain ⟨hs, hsigns⟩ := List.forall_mem_cons.mp hunary
      exact .unary hs (ih hsigns)

/-- A chain takes turns. -/
lemma OperatorChain.takesTurns (c : OperatorChain) : TakesTurns true c.tokens := by
  obtain ⟨first, rest⟩ := c
  refine first.takesTurns ?_
  induction rest with
  | nil => exact .done
  | cons p rest ih => exact .binary p.1.2 (p.2.takesTurns ih)

/-! ## Trees of operators -/

namespace Expr

/-- The tokens of a tree in order, if it is made of operators and single tokens and of nothing else.
Trees with other parts are not written without brackets. -/
inductive InOrder : Expr → List Token → Prop where
  | atom {t : Token} {e : Expr} (h : t.atom? = some e) : InOrder e [t]
  | unary {s : Sign} {right : Expr} {ts : List Token} (h : InOrder right ts) :
      InOrder (.unary s.text right) (.sign s :: ts)
  | binary {s : Sign} {left right : Expr} {ts us : List Token} (hleft : InOrder left ts)
      (hright : InOrder right us) :
      InOrder (.binary s.text left right) (ts ++ .sign s :: us)

/-- The precedence of a binary operator at the root. -/
def infixPower? : Expr → Option Nat
  | .binary op _ _ => (Sign.ofText? op).map Sign.power
  | _ => none

/-- No operand binds too loosely for its place: on the left of an operator of precedence `p` stands
no operator of a lower precedence, on the right none of precedence `p` or lower, and no unary
operator has a binary one as its operand. -/
def Grouped : Expr → Prop
  | .unary _ right => right.infixPower? = none ∧ right.Grouped
  | .binary op left right =>
    (∀ s, Sign.ofText? op = some s →
      (∀ q, left.infixPower? = some q → ¬ q < s.power) ∧ ∀ q, right.infixPower? = some q →
      ¬ q ≤ s.power) ∧
    left.Grouped ∧ right.Grouped
  | _ => True

variable {e left right u : Expr} {s : Sign} {t : Token} {ts us : List Token}

@[simp] lemma infixPower?_binary : (Expr.binary s.text left right).infixPower? = some s.power := by
  rw [infixPower?, Sign.ofText?_text, Option.map_some]

lemma infixPower?_of_atom? (h : t.atom? = some e) : e.infixPower? = none := by
  cases t with
  | keyword k => cases k <;> cases h <;> rfl
  | sign s => cases h
  | _ => cases h <;> rfl

lemma grouped_of_atom? (h : t.atom? = some e) : e.Grouped := by
  cases t with
  | keyword k => cases k <;> cases h <;> trivial
  | sign s => cases h
  | _ => cases h <;> trivial

/-- The left operand may have the same precedence and the right one may not. -/
lemma grouped_binary : (Expr.binary s.text left right).Grouped ↔
    (∀ q, left.infixPower? = some q → s.power ≤ q) ∧
      (∀ q, right.infixPower? = some q → s.power < q) ∧
      left.Grouped ∧ right.Grouped := by
  simp only [Grouped, Sign.ofText?_text, Option.some.injEq, forall_eq', Nat.not_lt,
    Nat.not_le, and_assoc]

/-! ## The parser reads grouped trees -/

/-- Behind the tokens of a tree an operator is next. -/
lemma InOrder.takesTurns (h : e.InOrder ts) (ht : TakesTurns true (ts ++ us)) :
    TakesTurns false us := by
  induction h generalizing us with
  | atom hatom => exact ht.of_atom hatom
  | unary _ ih => exact ih ht.of_unary.2
  | binary _ _ ihleft ihright =>
      rw [List.append_assoc] at ht
      exact ihright (ihleft ht).of_binary.2

/-- An operator at the root is one of the binary operators. -/
lemma InOrder.infixPower?_pos (h : e.InOrder ts) (ht : TakesTurns true (ts ++ us)) {q : Nat}
    (hq : e.infixPower? = some q) : 0 < q := by
  cases h with
  | atom hatom =>
      rw [infixPower?_of_atom? hatom] at hq
      cases hq
  | unary _ => cases hq
  | binary hleft _ =>
      rw [List.append_assoc] at ht
      rw [infixPower?_binary, Option.some.injEq] at hq
      exact hq ▸ (Sign.power_of_mem_binary (hleft.takesTurns ht).of_binary.1).1

/-- **The tokens of a grouped tree are read as the tree,** in front of anything that may go on with
it: what comes next must not bind tighter than the operator at the root, since the right operand
would take it. -/
theorem InOrder.reads {power : Nat} {c c₁ c₂ : Cursor} {e' : Expr} (h : e.InOrder ts)
    (ht : TakesTurns true (ts ++ us)) (hg : e.Grouped) (hcross : c.Crosses ts c₁)
    (hpower : ∀ q, e.infixPower? = some q → power < q)
    (hnext : ∀ s, c₁.peek = .sign s → s.power ≤ Sign.unaryPower ∧ ∀ q, e.infixPower? = some q →
      s.power ≤ q)
    (hmore : Reads (.more power e e') c₁ c₂) : Reads (.expr power e') c c₂ := by
  induction h generalizing power c c₁ c₂ e' us with
  | atom hatom =>
      obtain ⟨_, hpass, rfl⟩ := hcross
      exact .expr (.atom hatom hpass) hmore
  | @unary s right ts _ ih =>
      obtain ⟨c₀, hpass, hcross⟩ := hcross
      obtain ⟨hs, ht⟩ := ht.of_unary
      obtain ⟨hright, hg⟩ := hg
      have hnone {P : Nat → Prop} (q : Nat) (hq : right.infixPower? = some q) : P q := by
        rw [hright] at hq
        cases hq
      have hoperand : Reads (.expr Sign.unaryPower right) c₀ c₁ :=
        ih ht hg hcross hnone (fun o ho => ⟨(hnext o ho).1, hnone⟩)
          (.stop fun o ho => (hnext o ho).1)
      exact .expr (.unary hs hpass hoperand) hmore
  | @binary s left right ts us' hleft hright ihleft ihright =>
      obtain ⟨c₃, hl, c₄, hpass, hr⟩ := Cursor.crosses_append.mp hcross
      obtain ⟨hgl, hgr, hleftg, hrightg⟩ := grouped_binary.mp hg
      rw [List.append_assoc] at ht
      obtain ⟨hs, htright⟩ := (hleft.takesTurns ht).of_binary
      have hstep : power < s.power := hpower _ infixPower?_binary
      have hnext' (o : Sign) (ho : c₁.peek = .sign o) : o.power ≤ s.power :=
        (hnext o ho).2 _ infixPower?_binary
      -- the right operand ends where the whole tree ends
      have hoperand : Reads (.expr s.power right) c₄ c₁ := by
        refine ihright htright hrightg hr hgr (fun o ho => ⟨(hnext o ho).1, fun q hq => ?_⟩)
          (.stop hnext')
        exact Nat.le_of_lt (Nat.lt_of_le_of_lt (hnext' o ho) (hgr q hq))
      -- and the left one in front of the operator
      refine ihleft ht hleftg hl (fun q hq => Nat.lt_of_lt_of_le hstep (hgl q hq))
        (fun o ho => ?_) ?_
      · obtain rfl : o = s := by
          rw [hpass.peek] at ho
          cases ho
          rfl
        exact ⟨Nat.le_of_lt (Sign.power_of_mem_binary hs).2, hgl⟩
      · refine .binary hstep ?_ ?_ hpass hoperand hmore
        · rintro rfl
          revert hs
          decide
        · rintro rfl
          revert hs
          decide

/-! ## There is a grouped tree -/

/-- Adds an operator and its right operand at the right edge of a tree. -/
def attach (s : Sign) (u : Expr) : Expr → Expr
  | .binary op left right =>
    if (Sign.ofText? op).any fun o => o.power < s.power then .binary op left (attach s u right)
    else .binary s.text (.binary op left right) u
  | e => .binary s.text e u

lemma attach_of_atom? (h : t.atom? = some e) : attach s u e = .binary s.text e u := by
  cases t with
  | keyword k => cases k <;> cases h <;> rfl
  | sign s => cases h
  | _ => cases h <;> rfl

/-- The new operator goes to the right operand if it binds tighter, and otherwise takes the whole
tree. -/
lemma attach_binary (o : Sign) : attach s u (.binary o.text left right) =
    if o.power < s.power then .binary o.text left (attach s u right)
    else .binary s.text (.binary o.text left right) u := by
  rw [attach, Sign.ofText?_text, Option.any_some]
  simp only [decide_eq_true_eq]

/-- The root of the new tree is the new operator or the old root. -/
lemma InOrder.infixPower?_attach (h : e.InOrder ts) (s : Sign) (u : Expr) {q : Nat}
    (hq : (attach s u e).infixPower? = some q) : q = s.power ∨ e.infixPower? = some q := by
  cases h with
  | atom hatom =>
      rw [attach_of_atom? hatom, infixPower?_binary] at hq
      exact .inl (Option.some.inj hq).symm
  | unary _ =>
      change (Expr.binary s.text _ u).infixPower? = some q at hq
      rw [infixPower?_binary] at hq
      exact .inl (Option.some.inj hq).symm
  | binary _ _ =>
      rw [attach_binary] at hq
      split_ifs at hq
      · rw [infixPower?_binary] at hq ⊢
        exact .inr hq
      · rw [infixPower?_binary] at hq
        exact .inl (Option.some.inj hq).symm

/-- The tokens of the new operand come behind. -/
lemma InOrder.attach (h : e.InOrder ts) (hu : u.InOrder us) (s : Sign) :
    (Expr.attach s u e).InOrder (ts ++ .sign s :: us) := by
  induction h with
  | atom hatom =>
      rw [attach_of_atom? hatom]
      exact .binary (.atom hatom) hu
  | unary h _ => exact .binary (.unary h) hu
  | @binary o left right ts₁ ts₂ hleft hright _ ihright =>
      rw [attach_binary]
      split_ifs
      · rw [List.append_assoc]
        exact .binary hleft ihright
      · exact .binary (.binary hleft hright) hu

/-- A tree stays grouped, if the new operand has no operator at its root. -/
lemma Grouped.attach (hg : e.Grouped) (h : e.InOrder ts) (hu : u.Grouped)
    (hnone : u.infixPower? = none) (s : Sign) :
    (Expr.attach s u e).Grouped := by
  -- on the right of the new operator stands no binary operator
  have hnew {e : Expr} (hg : e.Grouped) (hle : ∀ q, e.infixPower? = some q → s.power ≤ q) :
      (Expr.binary s.text e u).Grouped := by
    refine grouped_binary.mpr ⟨hle, fun q hq => ?_, hg, hu⟩
    rw [hnone] at hq
    cases hq
  induction h with
  | atom hatom =>
      rw [attach_of_atom? hatom]
      refine hnew hg fun q hq => ?_
      rw [infixPower?_of_atom? hatom] at hq
      cases hq
  | unary h _ => exact hnew hg fun q hq => by cases hq
  | @binary o left right ts₁ ts₂ hleft hright _ ihright =>
      obtain ⟨hgl, hgr, hleftg, hrightg⟩ := grouped_binary.mp hg
      rw [attach_binary]
      split_ifs with hlt
      · refine grouped_binary.mpr ⟨hgl, fun q hq => ?_, hleftg, ihright hrightg⟩
        rcases hright.infixPower?_attach s u hq with rfl | hq
        · exact hlt
        · exact hgr q hq
      · refine hnew hg fun q hq => ?_
        rw [infixPower?_binary, Option.some.injEq] at hq
        omega

end Expr

/-- The tree of an operand: the unary operators apply from the inside out. -/
lemma OperandRow.exists_tree (u : OperandRow) :
    ∃ e : Expr, e.InOrder u.tokens ∧ e.Grouped ∧ e.infixPower? = none := by
  obtain ⟨signs, atom, hunary, hsingle⟩ := u
  show ∃ e : Expr, e.InOrder (signs.map .sign ++ [atom]) ∧ e.Grouped ∧ e.infixPower? = none
  induction signs with
  | nil =>
      obtain ⟨e, he⟩ := Option.isSome_iff_exists.mp hsingle
      exact ⟨e, .atom he, Expr.grouped_of_atom? he, Expr.infixPower?_of_atom? he⟩
  | cons s signs ih =>
      obtain ⟨e, hin, hg, hnone⟩ := ih (List.forall_mem_cons.mp hunary).2
      exact ⟨.unary s.text e, .unary hin, ⟨hnone, hg⟩, rfl⟩

/-- The tree of a chain: one operator after the other is attached with its right operand. -/
lemma OperatorChain.exists_tree (c : OperatorChain) :
    ∃ e : Expr, e.InOrder c.tokens ∧ e.Grouped := by
  have hall (rest : List ({ s : Sign // s ∈ Sign.binary } × OperandRow)) {e : Expr}
      {ts : List Token}
      (hin : e.InOrder ts) (hg : e.Grouped) :
      ∃ e' : Expr, e'.InOrder (ts ++ rest.flatMap fun p => .sign p.1 :: p.2.tokens) ∧
        e'.Grouped := by
    induction rest generalizing e ts with
    | nil =>
        rw [List.flatMap_nil, List.append_nil]
        exact ⟨e, hin, hg⟩
    | cons p rest ih =>
        obtain ⟨u, huin, hug, hunone⟩ := p.2.exists_tree
        obtain ⟨e', hin', hg'⟩ := ih (hin.attach huin p.1) (hg.attach hin hug hunone p.1)
        rw [List.append_assoc] at hin'
        exact ⟨e', hin', hg'⟩
  obtain ⟨e, hin, hg, -⟩ := c.first.exists_tree
  exact hall c.rest hin hg

/-! ## Programs -/

/-- The end of the text may be marked behind the tokens or not. -/
lemma Cursor.crosses_ofLexemes {ls : List Lexeme} {ts : List Token}
    (hts : ∀ t ∈ ts, t ≠ .eof ∧ t.isComment = false)
    (hls : ls.map Lexeme.token = ts ∨ ls.map Lexeme.token = ts ++ [.eof]) :
    ∃ c, (Cursor.ofLexemes ls).Crosses ts c ∧ c.peek = .eof := by
  have hall : ∀ l ∈ ls, (!l.token.isComment) = true := by
    intro l hl
    have hmem : l.token ∈ ls.map Lexeme.token := List.mem_map_of_mem hl
    rcases hls with hls | hls <;> rw [hls] at hmem
    · simp [(hts _ hmem).2]
    · rcases List.mem_append.mp hmem with hmem | hmem
      · simp [(hts _ hmem).2]
      · simp [List.mem_singleton.mp hmem, Token.isComment]
  have htake : (ls.map Lexeme.token).takeWhile (· ≠ .eof) = ts := by
    have hne : ∀ t ∈ ts, decide (t ≠ .eof) = true := fun t ht => decide_eq_true (hts t ht).1
    rcases hls with hls | hls <;> rw [hls]
    · exact List.takeWhile_eq_self_iff.mpr hne
    · rw [List.takeWhile_append_of_pos hne]
      simp
  rw [Cursor.ofLexemes, List.filter_eq_self.mpr hall, ← htake]
  exact Cursor.crosses_takeWhile ls Pos.start

/-- What is made of a chain, if there is a grouped tree with its tokens. -/
lemma OperatorChain.ofLexemes_of_grouped (c : OperatorChain) {ls : List Lexeme}
    (hls : ls.map Lexeme.token = c.tokens ∨ ls.map Lexeme.token = c.tokens ++ [.eof]) {e : Expr}
    (hin : e.InOrder c.tokens) (hg : e.Grouped) : Program.ofLexemes ls = .ok [.expr e] := by
  obtain ⟨c', hcross, hend⟩ := Cursor.crosses_ofLexemes c.takesTurns.plain hls
  have hturns : TakesTurns true (c.tokens ++ []) := by
    rw [List.append_nil]
    exact c.takesTurns
  have hnosign (s : Sign) : c'.peek ≠ .sign s := by simp [hend]
  have hread : Reads (.expr 0 e) (Cursor.ofLexemes ls) c' :=
    hin.reads hturns hg hcross (fun q hq => hin.infixPower?_pos hturns hq)
      (fun s hs => absurd hs (hnosign s))
      (.stop fun s hs => absurd hs (hnosign s))
  exact Program.ofLexemes_of_reads (.ofExpr hread hend)

/-- **A chain of operators is parsed to the one tree that groups it by precedence.**  The tree has
the tokens of the chain in their order and is grouped, and no other tree is like that. -/
theorem Program.ofLexemes_operatorChain (c : OperatorChain) {ls : List Lexeme}
    (hls : ls.map Lexeme.token = c.tokens ∨ ls.map Lexeme.token = c.tokens ++ [.eof]) :
    ∃ e : Expr, Program.ofLexemes ls = .ok [.expr e] ∧ (e.InOrder c.tokens ∧ e.Grouped) ∧
      ∀ e' : Expr, e'.InOrder c.tokens ∧ e'.Grouped → e' = e := by
  obtain ⟨e, hin, hg⟩ := c.exists_tree
  have hparse := c.ofLexemes_of_grouped hls hin hg
  refine ⟨e, hparse, ⟨hin, hg⟩, ?_⟩
  rintro e' ⟨hin', hg'⟩
  have hparse' := c.ofLexemes_of_grouped hls hin' hg'
  rw [hparse] at hparse'
  cases hparse'
  rfl

/-- All six levels of precedence, two operators of the same level side by side, and operators that
are unary in one place and binary in another. -/
def sixLevels : OperatorChain where
  first := ⟨[.minus, .bang], .ident "a", by decide, rfl⟩
  rest :=
    [(⟨.minus, by decide⟩, ⟨[.minus], .integer 1, by decide, rfl⟩),
      (⟨.minus, by decide⟩, ⟨[], .float ⟨0x4000000000000000⟩, by decide, rfl⟩),
      (⟨.star, by decide⟩, ⟨[], .ident "b", by decide, rfl⟩),
      (⟨.less, by decide⟩, ⟨[.bang, .bang], .keyword .nilWord, by decide, rfl⟩),
      (⟨.notEqual, by decide⟩, ⟨[], .string "c", by decide, rfl⟩),
      (⟨.either, by decide⟩, ⟨[], .keyword .trueWord, by decide, rfl⟩),
      (⟨.both, by decide⟩, ⟨[], .keyword .falseWord, by decide, rfl⟩)]

/-- The tree is found, and no other groups the chain. -/
theorem sixLevels_parsed :
    ∃ e : Expr, Program.ofLexemes ((sixLevels.tokens ++ [Token.eof]).map fun t => ⟨t, .start⟩) =
      .ok [.expr e] ∧
      (e.InOrder sixLevels.tokens ∧ e.Grouped) ∧ ∀ e' : Expr, e'.InOrder sixLevels.tokens ∧
      e'.Grouped → e' = e := by
  refine Program.ofLexemes_operatorChain sixLevels (.inr ?_)
  rw [List.map_map]
  exact List.map_id _

end Marmoset
