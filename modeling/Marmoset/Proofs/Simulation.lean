import Marmoset.Proofs.ScopeRules
import Marmoset.Proofs.Stages

/-!
# Compiled code runs as the tree is evaluated

Where the engines agree, the code of a part of a scope does what the evaluator does with this part
(`Site.Runs`), as long as it calls functions as the evaluator does.

What the engines agree in depends on what is known of the names, and this changes along the program.
A `Tracking` says how: `Tracking.Passes` leads from what is known before a part to what is known
behind it.  If single names and bindings keep to it (`Site.Tracks`), then so does all code.

There is a lemma for each way to compile a part, and **`Emits.simulates`** puts them together by
induction on the derivation.  Statements are run for the value that the last one leaves, since this
is what a branch of a conditional is compiled to.
-/

namespace Marmoset

/-! ## What the evaluator does -/

section

variable (call : Nat → List Value → Eval Value) (env : Nat)

/-- A conditional without a second branch is like one with an empty one. -/
lemma Expr.eval_cond (condition : Expr) (yes : List Stmt) (no : Option (List Stmt)) :
    (Expr.cond condition yes no).eval call env = condition.eval call env >>= fun v =>
      if v.truthy then Stmt.evalAll call env .nil yes
        else Stmt.evalAll call env .nil (no.getD []) := by
  cases no with
  | none => rfl
  | some no => rfl

/-- Each pair is evaluated key first, under the text of its key. -/
lemma Expr.evalPairs_eq (pairs : List (Expr × Expr)) :
    Expr.evalPairs call env pairs = pairs.map fun p => (p.1.text, do
      let k ← p.1.eval call env
      let v ← p.2.eval call env
      return (k, v)) := by
  induction pairs with
  | nil => rfl
  | cons p pairs ih =>
      rw [Expr.evalPairs, ih]
      rfl

/-- The texts of the keys do not matter any more once the pairs are sorted. -/
lemma Eval.sequence_congr {xs ys : List (String × Eval (Value × Value))}
    (h : xs.map Prod.snd = ys.map Prod.snd) :
    sequence xs = sequence ys := by
  induction xs generalizing ys with
  | nil =>
      cases ys with
      | nil => rfl
      | cons y ys => cases h
  | cons x xs ih =>
      cases ys with
      | nil => cases h
      | cons y ys =>
          obtain ⟨hxy, hrest⟩ := List.cons.inj h
          rw [sequence, sequence, ih hrest, hxy]

/-- The pairs of a hash are evaluated in the order in which they are compiled. -/
lemma Expr.evalPairs_sorted (pairs : List (Expr × Expr)) :
    Eval.sequence (byText (Expr.evalPairs call env pairs)) =
      Eval.sequence (Expr.evalPairs call env (sortedPairs pairs)) := by
  refine Eval.sequence_congr ?_
  rw [Expr.evalPairs_eq, Expr.evalPairs_eq, byText_pairs, List.map_map]
  rfl

/-- A first pair is evaluated before the others, and its key and value stand in front of theirs. -/
lemma Expr.sequence_evalPairs (k v : Expr) (ps : List (Expr × Expr)) :
    Eval.sequence (Expr.evalPairs call env ((k, v) :: ps)) = do
      let x ← k.eval call env
      let y ← v.eval call env
      let items ← Eval.sequence (Expr.evalPairs call env ps)
      return x :: y :: items := by
  rw [Expr.evalPairs, Eval.sequence]
  simp only [bind_assoc, pure_bind]

/-- The value of the statements before does not matter if there are more. -/
lemma Stmt.evalAll_last {ss : List Stmt} (h : ss ≠ []) (last last' : Value) :
    Stmt.evalAll call env last ss = Stmt.evalAll call env last' ss := by
  cases ss with
  | nil => exact absurd rfl h
  | cons s ss => rfl

lemma Stmt.evalAll_single (s : Stmt) : Stmt.evalAll call env .nil [s] = s.eval call env := by
  show (s.eval call env >>= fun v => pure v) = _
  rw [bind_pure]

/-- Only expressions have a value. -/
lemma Stmt.eval_bind_nil {s : Stmt} (hs : s.isPlain = true) (hne : ∀ e, s ≠ .expr e) :
    (s.eval call env >>= fun _ => pure .nil) = s.eval call env := by
  cases s with
  | block _ => cases hs
  | expr e => exact absurd rfl (hne e)
  | ret value =>
      rw [Stmt.eval, bind_assoc]
      rfl
  | define name value => simp only [Stmt.eval, bind_assoc, pure_bind]
  | assign target value =>
      cases target with
      | ident _ | index _ _ => simp only [Stmt.eval, bind_assoc, pure_bind]
      | _ => rfl

end

/-! ## The code of branches -/

/-- Only the end of the code decides how a branch ends. -/
lemma asBranch_append (is : List Instr) {js : List Instr} (h : js ≠ []) :
    asBranch (is ++ js) = is ++ asBranch js := by
  rw [asBranch, asBranch, lastOp_append is h]
  split_ifs with hp
  · rw [List.dropLast_append_of_ne_nil h]
  · rw [List.append_assoc]

@[simp] lemma asBranch_pop (is : List Instr) : asBranch (is ++ [.pop]) = is := by
  rw [asBranch, lastOp_append_singleton, if_pos rfl, List.dropLast_concat]

/-- Statements other than blocks have code. -/
lemma Emits.ne_nil {s : Stmt} {d d' : Draft} {pos : Nat} {is : List Instr}
    (h : Emits (.stmt s) d pos is d') (hs : s.isPlain = true) : is ≠ [] := by
  cases h with
  | block _ => cases hs
  | define _ | assign _ | setIndex _ _ _ | ret _ | expr _ => simp

/-- So statements that start with one of these have code. -/
lemma Emits.ne_nil_of_stmts {s : Stmt} {ss : List Stmt} {d d' : Draft} {pos : Nat} {is : List Instr}
    (h : Emits (.stmts (s :: ss)) d pos is d') (hs : s.isPlain = true) : is ≠ [] := by
  cases h with
  | stmts hhead _ => exact List.append_ne_nil_of_left_ne_nil (hhead.ne_nil hs) _

/-! ## What is known of names -/

/-- The slot that a statement stores to, and the names once it has this slot. -/
def SymbolTable.slotFor (t : SymbolTable) : Stmt → Option (Symbol × SymbolTable)
  | .define n _ => some (t.define n)
  | .assign (.ident n) _ => some (t.assignable n)
  | _ => none

/-- Names stay in order when a statement gets its slot. -/
lemma Draft.Good.slotFor {k : Nat} {d : Draft} {s : Stmt} {x : Symbol} {t : SymbolTable}
    (h : d.Good k) (hs : d.symbols.slotFor s = some (x, t)) : Good k { d with symbols := t } := by
  unfold SymbolTable.slotFor at hs
  split at hs
  · cases hs
    exact h.define _
  · rename_i n _
    have ht : (d.symbols.assignable n).2 = t := congrArg Prod.snd (Option.some.inj hs)
    rw [← ht]
    exact h.assignable _
  · cases hs

/-- The name that a statement binds, and the expression for its value. -/
def Stmt.binding? : Stmt → Option (String × Expr)
  | .define n e => some (n, e)
  | .assign (.ident n) e => some (n, e)
  | _ => none

section

variable {t t' : SymbolTable} {s : Stmt} {x : Symbol} {n : String} {e : Expr}

lemma Stmt.target?_of_binding? (hs : s.binding? = some (n, e)) : s.target? = some n := by
  unfold binding? at hs
  split at hs <;> cases hs <;> rfl

/-- The value of a binding mentions no more than the statement. -/
lemma Stmt.within_of_binding? (hs : s.binding? = some (n, e)) : e.mentions.Within s.mentions := by
  unfold binding? at hs
  split at hs <;> cases hs
  · exact Mentions.within_right _ _
  · exact Mentions.within_right { binds := [n] } _

/-- A binding evaluates its value and binds the name; it has no value of its own. -/
lemma Stmt.eval_of_binding? (call : Nat → List Value → Eval Value) (env : Nat)
    (hs : s.binding? = some (n, e)) :
    s.eval call env = (e.eval call env >>= fun v => Eval.bind env n v >>= fun _ => pure .nil) := by
  unfold binding? at hs
  split at hs <;> cases hs <;> rfl

/-- The slot is that of the name that the statement binds. -/
lemma SymbolTable.find?_of_slotFor (hx : t.slotFor s = some (x, t'))
    (hs : s.binding? = some (n, e)) :
    t'.current.find? n = some x ∧ x.kind.owned = true := by
  unfold Stmt.binding? at hs
  split at hs <;> cases hs
  · cases hx
    exact t.find?_of_define n
  · have heq : t.assignable n = (x, t') := Option.some.inj hx
    have hfind := t.find?_of_assignable n
    rwa [heq] at hfind

end

/-- A way to keep track of names. -/
structure Tracking (K : Type) where
  /-- The name may be read. -/
  reads : K → String → Prop
  /-- The function may be made. -/
  makes : K → Expr → Prop
  /-- The statement has got the slot that it stores to. -/
  opens : Stmt → K → K → Prop
  /-- The statement has stored its value. -/
  closes : Stmt → K → K → Prop
  /-- The statements were compiled, but they are not run. -/
  skips : List Stmt → K → K → Prop

/-- How what is known changes along a part that is evaluated from a store on.  Of a conditional only
one branch counts; the other one is skipped. -/
inductive Tracking.Passes {K : Type} (T : Tracking K) (c : Site) : Part → K → Store → K → Prop where
  | ident {n k σ} (h : T.reads k n) : T.Passes c (.expr (.ident n)) k σ k
  | integer {n k σ} : T.Passes c (.expr (.integer n)) k σ k
  | float {x k σ} : T.Passes c (.expr (.float x)) k σ k
  | string {s k σ} : T.Passes c (.expr (.string s)) k σ k
  | boolean {x k σ} : T.Passes c (.expr (.boolean x)) k σ k
  | nil {k σ} : T.Passes c (.expr .nil) k σ k
  | array {items k k' σ} (h : T.Passes c (.exprs items) k σ k') :
      T.Passes c (.expr (.array items)) k σ k'
  | hash {pairs k k' σ} (h : T.Passes c (.pairs (sortedPairs pairs)) k σ k') :
      T.Passes c (.expr (.hash pairs)) k σ k'
  | function {name params body k σ} (h : T.makes k (.function name params body)) :
      T.Passes c (.expr (.function name params body)) k σ k
  | unary {op e k k' σ} (h : T.Passes c (.expr e) k σ k') : T.Passes c (.expr (.unary op e)) k σ k'
  | binary {op code e e' k k₁ k' σ} (known : Operator.binary? op = some (code, false))
      (h : T.Passes c (.expr e) k σ k₁)
      (h' : ∀ v σ₁, e.eval c.call c.env σ = .ok v σ₁ → T.Passes c (.expr e') k₁ σ₁ k') :
      T.Passes c (.expr (.binary op e e')) k σ k'
  | swapped {op code e e' k k₁ k' σ} (known : Operator.binary? op = some (code, true))
      (h : T.Passes c (.expr e') k σ k₁)
      (h' : ∀ v σ₁, e'.eval c.call c.env σ = .ok v σ₁ → T.Passes c (.expr e) k₁ σ₁ k') :
      T.Passes c (.expr (.binary op e e')) k σ k'
  | index {e e' k k₁ k' σ} (h : T.Passes c (.expr e) k σ k₁)
      (h' : ∀ v σ₁, e.eval c.call c.env σ = .ok v σ₁ → T.Passes c (.expr e') k₁ σ₁ k') :
      T.Passes c (.expr (.index e e')) k σ k'
  | condYes {e yes no k k₁ k₂ k' σ} (h : T.Passes c (.expr e) k σ k₁)
      (holds : ∀ v σ₁, e.eval c.call c.env σ = .ok v σ₁ → v.truthy = true)
      (hyes : ∀ v σ₁, e.eval c.call c.env σ = .ok v σ₁ → T.Passes c (.branch yes) k₁ σ₁ k₂)
      (skip : T.skips (no.getD []) k₂ k') : T.Passes c (.expr (.cond e yes no)) k σ k'
  | condNo {e yes no k k₁ k₂ k' σ} (h : T.Passes c (.expr e) k σ k₁)
      (fails : ∀ v σ₁, e.eval c.call c.env σ = .ok v σ₁ → v.truthy = false)
      (skip : T.skips yes k₁ k₂)
      (hno : ∀ v σ₁, e.eval c.call c.env σ = .ok v σ₁ →
        T.Passes c (.branch (no.getD [])) k₂ σ₁ k') :
      T.Passes c (.expr (.cond e yes no)) k σ k'
  | call {e args k k₁ k' σ} (h : T.Passes c (.expr e) k σ k₁)
      (h' : ∀ v σ₁, e.eval c.call c.env σ = .ok v σ₁ → T.Passes c (.exprs args) k₁ σ₁ k') :
      T.Passes c (.expr (.call e args)) k σ k'
  | noExprs {k σ} : T.Passes c (.exprs []) k σ k
  | exprs {e es k k₁ k' σ} (h : T.Passes c (.expr e) k σ k₁)
      (h' : ∀ v σ₁, e.eval c.call c.env σ = .ok v σ₁ → T.Passes c (.exprs es) k₁ σ₁ k') :
      T.Passes c (.exprs (e :: es)) k σ k'
  | noPairs {k σ} : T.Passes c (.pairs []) k σ k
  | pairs {e e' ps k k₁ k₂ k' σ} (h : T.Passes c (.expr e) k σ k₁)
      (h' : ∀ v σ₁, e.eval c.call c.env σ = .ok v σ₁ → T.Passes c (.expr e') k₁ σ₁ k₂)
      (h'' : ∀ v σ₁ w σ₂, e.eval c.call c.env σ = .ok v σ₁ → e'.eval c.call c.env σ₁ = .ok w σ₂ →
        T.Passes c (.pairs ps) k₂ σ₂ k') : T.Passes c (.pairs ((e, e') :: ps)) k σ k'
  | binding {s n e k k₁ k₂ k' σ} (hs : s.binding? = some (n, e)) (opens : T.opens s k k₁)
      (h : T.Passes c (.expr e) k₁ σ k₂) (closes : T.closes s k₂ k') : T.Passes c (.stmt s) k σ k'
  | setIndex {e e' e'' k k₁ k₂ k' σ} (h : T.Passes c (.expr e) k σ k₁)
      (h' : ∀ v σ₁, e.eval c.call c.env σ = .ok v σ₁ → T.Passes c (.expr e') k₁ σ₁ k₂)
      (h'' : ∀ v σ₁ w σ₂, e.eval c.call c.env σ = .ok v σ₁ → e'.eval c.call c.env σ₁ = .ok w σ₂ →
        T.Passes c (.expr e'') k₂ σ₂ k') : T.Passes c (.stmt (.assign (.index e e') e'')) k σ k'
  | ret {e k k' σ} (h : T.Passes c (.expr e) k σ k') : T.Passes c (.stmt (.ret e)) k σ k'
  | expr {e k k' σ} (h : T.Passes c (.expr e) k σ k') : T.Passes c (.stmt (.expr e)) k σ k'
  | noStmts {k σ} : T.Passes c (.stmts []) k σ k
  | stmts {s ss k k₁ k' σ} (h : T.Passes c (.stmt s) k σ k₁)
      (h' : ∀ v σ₁, s.eval c.call c.env σ = .ok v σ₁ → T.Passes c (.stmts ss) k₁ σ₁ k') :
      T.Passes c (.stmts (s :: ss)) k σ k'
  | branch {ss k k' σ} (plain : ∀ s ∈ ss, s.isPlain = true) (h : T.Passes c (.stmts ss) k σ k') :
      T.Passes c (.branch ss) k σ k'

namespace Tracking.Passes

variable {K : Type} {T : Tracking K} {c : Site} {k k' : K} {σ : Store}

/-- Literals change nothing. -/
lemma eq_of_literal {e : Expr} (h : T.Passes c (.expr e) k σ k')
    (he : (∃ x, e.constant? = some x) ∨ ∃ op, e.immediate? = some op) : k' = k := by
  cases h with
  | ident | integer | float | string | boolean | nil | function => rfl
  | _ => rcases he with ⟨_, he⟩ | ⟨_, he⟩ <;> cases he

/-- A statement that is passed is no block. -/
lemma isPlain {s : Stmt} (h : T.Passes c (.stmt s) k σ k') : s.isPlain = true := by
  cases h with
  | binding hs =>
      cases s with
      | block body => cases hs
      | _ => rfl
  | setIndex | ret | expr => rfl

end Tracking.Passes

/-- Nothing that is known changes along parts that mention no more than `a`, with expressions of
some kind. -/
structure Tracking.Steady {K : Type} (T : Tracking K) (p : Expr → Bool) (q : Stmt → Bool)
    (a : Mentions) (k : K) :
    Prop where
  plain : ∀ {s}, q s = true → s.isPlain = true
  reads : ∀ {n}, n ∈ a.uses → T.reads k n
  makes : ∀ {name params body}, (Expr.function name params body).every p q = true →
    (Expr.function name params body).mentions.Within a → T.makes k (.function name params body)
  opens : ∀ {s : Stmt} {n e}, s.binding? = some (n, e) → s.mentions.Within a → T.opens s k k
  closes : ∀ {s : Stmt} {n e}, s.binding? = some (n, e) → s.mentions.Within a → T.closes s k k
  skips : ∀ {ss : List Stmt}, (Stmt.mentionsAll ss).Within a → T.skips ss k k

/-- Such parts are passed. -/
lemma Emits.passes {K : Type} {T : Tracking K} {p : Expr → Bool} {q : Stmt → Bool} {a : Mentions}
    {k : K} (hT : T.Steady p q a k) {part : Part} {d d' : Draft} {pos : Nat} {is : List Instr}
    (h : Emits part d pos is d') (hw : part.mentions.Within a) (ho : part.every p q = true)
    (c : Site) (σ : Store) :
    T.Passes c part k σ k := by
  induction h generalizing σ with
  | ident _ => exact .ident (hT.reads (hw.uses List.mem_cons_self))
  | @constant e _ _ _ literal =>
      cases e with
      | integer _ => exact .integer
      | float _ => exact .float
      | string _ => exact .string
      | _ => cases literal
  | @immediate e _ _ _ literal =>
      cases e with
      | boolean _ => exact .boolean
      | nil => exact .nil
      | _ => cases literal
  | array _ ih => exact .array (ih hw (Bool.and_eq_true_iff.mp ho).2 σ)
  | hash _ ih =>
      exact .hash (ih ((Expr.mentionsPairs_sorted _).trans hw)
        (Expr.everyPair_sorted (Bool.and_eq_true_iff.mp ho).2) σ)
  | function _ _ _ _ _ _ _ _ => exact .function (hT.makes ho hw)
  | unary _ _ ih => exact .unary (ih hw (Bool.and_eq_true_iff.mp ho).2 σ)
  | binary known _ _ ih ih' =>
      obtain ⟨⟨-, ho₁⟩, ho₂⟩ := (Bool.and_eq_true_iff.mp ho).imp_left Bool.and_eq_true_iff.mp
      exact .binary known (ih ((Mentions.within_left _ _).trans hw) ho₁ σ)
        fun _ σ₁ _ => ih' ((Mentions.within_right _ _).trans hw) ho₂ σ₁
  | swapped known _ _ ih ih' =>
      obtain ⟨⟨-, ho₁⟩, ho₂⟩ := (Bool.and_eq_true_iff.mp ho).imp_left Bool.and_eq_true_iff.mp
      exact .swapped known (ih ((Mentions.within_right _ _).trans hw) ho₂ σ)
        fun _ σ₁ _ => ih' ((Mentions.within_left _ _).trans hw) ho₁ σ₁
  | index _ _ ih ih' =>
      obtain ⟨⟨-, ho₁⟩, ho₂⟩ := (Bool.and_eq_true_iff.mp ho).imp_left Bool.and_eq_true_iff.mp
      exact .index (ih ((Mentions.within_left _ _).trans hw) ho₁ σ)
        fun _ σ₁ _ => ih' ((Mentions.within_right _ _).trans hw) ho₂ σ₁
  | @cond e _ _ _ _ _ _ _ _ _ _ _ _ _ ih ih' ih'' =>
      obtain ⟨ho₁, ho₂, ho₃⟩ := Expr.every_cond ho
      rw [Part.mentions, Expr.mentions_cond] at hw
      have hw₂ := ((Mentions.within_right _ _).trans (Mentions.within_left _ _)).trans hw
      have hw₃ := (Mentions.within_right _ _).trans hw
      have hp := ih (((Mentions.within_left _ _).trans (Mentions.within_left _ _)).trans hw) ho₁ σ
      by_cases hcond : ∃ v σ₁, e.eval c.call c.env σ = .ok v σ₁ ∧ v.truthy = false
      · obtain ⟨v, σ₁, hv, hfalse⟩ := hcond
        refine .condNo hp (fun w σ₂ hw => ?_) (hT.skips hw₂) fun _ σ₂ _ => ih'' hw₃ ho₃ σ₂
        cases hv.symm.trans hw
        exact hfalse
      · refine .condYes hp (fun w σ₂ hw => ?_) (fun _ σ₂ _ => ih' hw₂ ho₂ σ₂) (hT.skips hw₃)
        exact Bool.of_not_eq_false fun hfalse => hcond ⟨w, σ₂, hw, hfalse⟩
  | call _ _ ih ih' =>
      obtain ⟨⟨-, ho₁⟩, ho₂⟩ := (Bool.and_eq_true_iff.mp ho).imp_left Bool.and_eq_true_iff.mp
      exact .call (ih ((Mentions.within_left _ _).trans hw) ho₁ σ)
        fun _ σ₁ _ => ih' ((Mentions.within_right _ _).trans hw) ho₂ σ₁
  | noExprs => exact .noExprs
  | exprs _ _ ih ih' =>
      obtain ⟨ho₁, ho₂⟩ := Bool.and_eq_true_iff.mp ho
      exact .exprs (ih ((Mentions.within_left _ _).trans hw) ho₁ σ)
        fun _ σ₁ _ => ih' ((Mentions.within_right _ _).trans hw) ho₂ σ₁
  | noPairs => exact .noPairs
  | pairs _ _ _ ih ih' ih'' =>
      obtain ⟨ho₁₂, ho₃⟩ := Bool.and_eq_true_iff.mp ho
      obtain ⟨ho₁, ho₂⟩ := Bool.and_eq_true_iff.mp ho₁₂
      exact .pairs
        (ih (((Mentions.within_left _ _).trans (Mentions.within_left _ _)).trans hw) ho₁ σ)
        (fun _ σ₁ _ =>
          ih' (((Mentions.within_right _ _).trans (Mentions.within_left _ _)).trans hw) ho₂ σ₁)
        fun _ _ _ σ₂ _ _ => ih'' ((Mentions.within_right _ _).trans hw) ho₃ σ₂
  | define _ ih =>
      exact .binding rfl (hT.opens rfl hw)
        (ih ((Mentions.within_right _ _).trans hw) (Bool.and_eq_true_iff.mp ho).2 σ)
        (hT.closes rfl hw)
  | @assign name value _ _ _ _ _ ih =>
      have hw' := (Mentions.within_right { binds := [name] } value.mentions).trans hw
      exact .binding rfl (hT.opens rfl hw) (ih hw' (Bool.and_eq_true_iff.mp ho).2 σ)
        (hT.closes rfl hw)
  | setIndex _ _ _ ih ih' ih'' =>
      obtain ⟨hleft, ho₃⟩ := Bool.and_eq_true_iff.mp ho
      obtain ⟨⟨-, ho₁⟩, ho₂⟩ :=
        (Bool.and_eq_true_iff.mp (Bool.and_eq_true_iff.mp hleft).2).imp_left Bool.and_eq_true_iff.mp
      exact .setIndex
        (ih (((Mentions.within_left _ _).trans (Mentions.within_left _ _)).trans hw) ho₁ σ)
        (fun _ σ₁ _ =>
          ih' (((Mentions.within_right _ _).trans (Mentions.within_left _ _)).trans hw) ho₂ σ₁)
        fun _ _ _ σ₂ _ _ => ih'' ((Mentions.within_right _ _).trans hw) ho₃ σ₂
  | ret _ ih => exact .ret (ih hw (Bool.and_eq_true_iff.mp ho).2 σ)
  | expr _ ih => exact .expr (ih hw (Bool.and_eq_true_iff.mp ho).2 σ)
  | block _ _ => cases hT.plain (Stmt.of_every ho)
  | noStmts => exact .noStmts
  | stmts _ _ ih ih' =>
      obtain ⟨ho₁, ho₂⟩ := Bool.and_eq_true_iff.mp ho
      exact .stmts (ih ((Mentions.within_left _ _).trans hw) ho₁ σ)
        fun _ σ₁ _ => ih' ((Mentions.within_right _ _).trans hw) ho₂ σ₁
  | branch _ ih =>
      exact .branch (fun s hs => hT.plain (Stmt.of_every (Stmt.everyOf_iff.mp ho s hs)))
        (ih hw ho σ)

/-! ## Runs -/

open Joint (Arrived)

/-- The code does what the evaluator does with the part, from the stage where it starts to its
end. -/
def Part.Follows (c : Site) (A : Joint → Prop) (pos : Nat) (b : Joint) : Part → Prop
  | .expr e => b.Follows c b.machine.sp (.next b.machine) (e.eval c.call c.env) fun v =>
      Arrived A pos b.machine.sp [v]
  | .exprs es =>
    b.Follows c b.machine.sp (.next b.machine) (Expr.evalAll c.call c.env es) fun vs b' =>
      Arrived A pos b.machine.sp vs b' ∧ vs.length = es.length
  | .pairs ps =>
    b.Follows c b.machine.sp (.next b.machine) (Eval.sequence (Expr.evalPairs c.call c.env ps))
      fun vs b' => Arrived A pos b.machine.sp vs b' ∧ vs.length = ps.length * 2
  | .stmt s => b.Follows c b.machine.sp (.next b.machine) (s.eval c.call c.env) fun _ =>
      Arrived A pos b.machine.sp []
  | .stmts ss | .branch ss =>
      b.Follows c b.machine.sp (.next b.machine) (Stmt.evalAll c.call c.env .nil ss) fun v =>
        Arrived A pos b.machine.sp [v]

/-- More may be said of what the engines agree in. -/
lemma Part.Follows.keeping {c : Site} {A A' : Joint → Prop} {pos : Nat} {b : Joint} {part : Part}
    (h : part.Follows c A pos b) (hA : ∀ b', b.Keeps c.env b.machine.sp b' → A b' → A' b') :
    part.Follows c A' pos b := by
  cases part with
  | expr _ | stmt _ | stmts _ | branch _ =>
      rw [Part.Follows] at h ⊢
      exact h.keeping (Nat.le_refl _) fun _ b' hk harr => ⟨hA b' hk harr.1, harr.2⟩
  | exprs _ | pairs _ =>
      rw [Part.Follows] at h ⊢
      exact h.keeping (Nat.le_refl _) fun _ b' hk harr => ⟨⟨hA b' hk harr.1.1, harr.1.2⟩, harr.2⟩

section

variable {c : Site} {A : Joint → Prop} {pos : Nat} {b : Joint}

/-- What was pushed is what the evaluator came to. -/
lemma Part.Follows.expr {e : Expr} (h : (Part.expr e).Follows c A pos b) :
    b.Follows c b.machine.sp (.next b.machine) (e.eval c.call c.env) fun v b' =>
      e.eval c.call c.env b.store = .ok v b'.store ∧ Arrived A pos b.machine.sp [v] b' :=
  Joint.Follows.ran h

/-- A statement leaves nothing on the stack. -/
lemma Part.Follows.stmt {s : Stmt} (h : (Part.stmt s).Follows c A pos b) :
    b.Follows c b.machine.sp (.next b.machine) (s.eval c.call c.env) fun v b' =>
      s.eval c.call c.env b.store = .ok v b'.store ∧ Arrived A pos b.machine.sp [] b' :=
  Joint.Follows.ran h

end

namespace Site

/-- The engines agree as `A` says, wherever names are kept track of. -/
structure Tracks {K : Type} (c : Site) (T : Tracking K) (A : SymbolTable → K → Joint → Prop) :
    Prop where
  stable : ∀ t k, Joint.Stable (A t k)
  ident : ∀ {d : Draft} {x : Symbol} {pos n t k b}, d.symbols.resolve n = some (x, t) →
    T.reads k n → c.Stage (A d.symbols k) d pos [x.loadInstr] { d with symbols := t } b →
      (Part.expr (.ident n)).Follows c (A t k) (pos + extent [x.loadInstr]) b
  function : ∀ {d d' : Draft} {pos is name params body k b},
    Emits (.expr (.function name params body)) d pos is d' →
    T.makes k (.function name params body) → c.Stage (A d.symbols k) d pos is d' b →
      (Part.expr (.function name params body)).Follows c (A d'.symbols k) (pos + extent is) b
  opens : ∀ {d : Draft} {t s x k k' b}, d.Good Builtin.table.length →
    d.symbols.slotFor s = some (x, t) → T.opens s k k' → A d.symbols k b → A t k' b
  closes : ∀ {s : Stmt} {d d' : Draft} {x : Symbol} {b₀ b : Joint} {n e t is pos k k₁ k₂ k' h v},
    d.Good Builtin.table.length → d.symbols.slotFor s = some (x, t) → s.binding? = some (n, e) →
      T.opens s k k₁ →
      Emits (.expr e) { d with symbols := t } pos is d' → T.Passes c (.expr e) k₁ b₀.store k₂ →
        T.closes s k₂ k' → A t k₁ b₀ → b₀.Keeps c.env h b →
        c.Stage (A d'.symbols k₂) d' (pos + extent is) [x.storeInstr] d' b →
          b.At (pos + extent is) h [v] →
          b.Follows c h (.next b.machine) (Eval.bind c.env n v) fun _ =>
            Arrived (A d'.symbols k') (pos + extent is + extent [x.storeInstr]) h []
  skips : ∀ {d d' : Draft} {ss pos is k k' b}, d.Good Builtin.table.length →
    Emits (.branch ss) d pos is d' → T.skips ss k k' → A d.symbols k b → A d'.symbols k' b

/-- A statement has got the slot that it stores to. -/
lemma Stage.opened {c : Site} {A A' : Joint → Prop} {d d' : Draft} {pos : Nat} {is : List Instr}
    {b : Joint} {s : Stmt} {x : Symbol} {t : SymbolTable} (hst : c.Stage A d pos is d' b)
    (hx : d.symbols.slotFor s = some (x, t)) (hA : Joint.Stable A') (ha : A' b) :
    c.Stage A' { d with symbols := t } pos is d' b :=
  { hst with
    stable := hA
    agrees := ha
    good := hst.good.slotFor hx }

/-- A statement that binds a name: the expression for its value, and what is stored. -/
lemma Stage.binding {c : Site} {A A₁ A' : Joint → Prop} {d d' : Draft} {pos : Nat} {is : List Instr}
    {b : Joint} {s : Stmt} {n : String} {e : Expr} {x : Symbol}
    (hst : c.Stage A d pos (is ++ [x.storeInstr]) d' b) (hs : s.binding? = some (n, e))
    (he : Emits (.expr e) d pos is d') (hA : Joint.Stable A₁)
    (hvalue : (Part.expr e).Follows c A₁ (pos + extent is) b)
    (hstore : ∀ v b₁, b.Keeps c.env b.machine.sp b₁ →
      c.Stage A₁ d' (pos + extent is) [x.storeInstr] d' b₁ →
      b₁.At (pos + extent is) b.machine.sp [v] →
      b₁.Follows c b.machine.sp (.next b₁.machine) (Eval.bind c.env n v) fun _ =>
        Arrived A' (pos + extent is + extent [x.storeInstr]) b.machine.sp []) :
    (Part.stmt s).Follows c A' (pos + extent (is ++ [x.storeInstr])) b := by
  rw [Part.Follows, Stmt.eval_of_binding? _ _ hs]
  refine hst.bind (g := fun v => [v]) he hst.ground_le (Nat.le_refl _) hA hvalue (fun _ _ h => h) ?_
  rintro v b₁ hk₁ hst₁ ⟨-, hat₁⟩
  rw [extent_append, ← Nat.add_assoc]
  exact (hstore v b₁ hk₁ hst₁ hat₁).map (Nat.le_refl _) fun _ _ _ h => h

variable {K : Type} {c : Site} {T : Tracking K} {A : SymbolTable → K → Joint → Prop}

/-- Wherever names are kept track of, the part runs as it is evaluated. -/
def Runs (c : Site) (T : Tracking K) (A : SymbolTable → K → Joint → Prop) (part : Part) (d : Draft)
    (pos : Nat) (is : List Instr) (d' : Draft) : Prop :=
  ∀ ⦃k k' : K⦄ ⦃b : Joint⦄, T.Passes c part k b.store k' → c.Stage (A d.symbols k) d pos is d' b →
    part.Follows c (A d'.symbols k') (pos + extent is) b

variable (hT : c.Tracks T A) {d d₁ d₂ d' : Draft} {pos : Nat}
  {is is' is'' rest : List Instr} {b : Joint}
  {e e' : Expr} {k k₁ k₂ k' : K}

include hT

/-- Two expressions, the values of which lie on the stack one above the other. -/
lemma Stage.two {α : Type} {f : Value → Value → Eval α} {Q : α → Joint → Prop}
    (hst : c.Stage (A d.symbols k) d pos (is ++ (is' ++ rest)) d' b)
    (he : Emits (.expr e) d pos is d₁)
    (he' : Emits (.expr e') d₁ (pos + extent is) is' d₂) (hd : d₂.Grows d')
    (hr : c.Runs T A (.expr e) d pos is d₁)
    (hr' : c.Runs T A (.expr e') d₁ (pos + extent is) is' d₂)
    (hp : T.Passes c (.expr e) k b.store k₁)
    (hp' : ∀ v σ₁, e.eval c.call c.env b.store = .ok v σ₁ → T.Passes c (.expr e') k₁ σ₁ k₂)
    (hf : ∀ v w σ₁ b', e.eval c.call c.env b.store = .ok v σ₁ →
      e'.eval c.call c.env σ₁ = .ok w b'.store →
      b.Keeps c.env b.machine.sp b' →
      c.Stage (A d₂.symbols k₂) d₂ (pos + extent is + extent is') rest d' b' →
      b'.At (pos + extent is + extent is') b.machine.sp [v, w] →
        b'.Follows c b.machine.sp (.next b'.machine) (f v w) Q) :
    b.Follows c b.machine.sp (.next b.machine)
      (do let v ← e.eval c.call c.env; let w ← e'.eval c.call c.env; f v w) Q := by
  refine hst.bind (g := fun v => [v]) he hst.ground_le (Nat.le_refl _) (hT.stable _ _)
    (hr hp (hst.first (he'.grows.trans hd))).expr (fun _ _ h => h.2) ?_
  rintro v b₁ hk₁ hst₁ ⟨hv, -, hat₁⟩
  have hsp : b₁.machine.sp = b.machine.sp + 1 := hat₁.sp
  have hg : b₁.machine.ground ≤ b.machine.sp := hk₁.ground ▸ hst.ground_le
  refine hst₁.bind (g := fun v => [v]) he' hg (by omega) (hT.stable _ _)
    (hr' (hp' v b₁.store hv) (hst₁.first hd)).expr (fun _ _ h => h.2) ?_
  rintro w b₂ hk₂ hst₂ ⟨hw, -, hat₂⟩
  rw [hsp] at hk₂ hat₂
  exact hf v w b₁.store b₂ hv hw (hk₁.trans (hk₂.weaken (Nat.le_succ _))) hst₂
    (hat₁.append hk₂ hg hat₂)

namespace Runs

/-! ### Expressions -/

/-- A name that may be read is loaded from where it was found. -/
lemma ident {n : String} {x : Symbol} {t : SymbolTable} (hr : d.symbols.resolve n = some (x, t)) :
    c.Runs T A (.expr (.ident n)) d pos [x.loadInstr] { d with symbols := t } := by
  intro k k' b hp hst
  cases hp with
  | ident hn => exact hT.ident hr hn hst

omit hT in
/-- A literal is loaded from the constants. -/
lemma constant {x : Constant} (hx : e.constant? = some x) :
    c.Runs T A (.expr e) d pos [⟨.constant, [d.constants.size]⟩]
      { d with constants := d.constants.push x } := by
  intro k k' b hp hst
  rw [hp.eq_of_literal (.inl ⟨x, hx⟩)]
  exact hst.constant hx

omit hT in
/-- Truth values and nil are pushed. -/
lemma immediate {op : Opcode} (hop : e.immediate? = some op) :
    c.Runs T A (.expr e) d pos [.plain op] d := by
  intro k k' b hp hst
  rw [hp.eq_of_literal (.inr ⟨op, hop⟩)]
  exact hst.immediate hop

/-- The items of an array are on the stack in order when it is made. -/
lemma array {items : List Expr} (hitems : Emits (.exprs items) d pos is d')
    (hr : c.Runs T A (.exprs items) d pos is d') :
    c.Runs T A (.expr (.array items)) d pos (is ++ [⟨.array, [items.length]⟩]) d' := by
  intro k k' b hp hst
  cases hp with
  | array hp =>
      have hx := hr hp (hst.first (.refl _))
      rw [Part.Follows] at hx
      refine hst.bind (g := id) hitems hst.ground_le (Nat.le_refl _) (hT.stable _ _) hx
        (fun _ _ h => h.1) ?_
      rintro vs b' hk hst' ⟨⟨-, hat⟩, hlen⟩
      rw [← hlen] at hst' ⊢
      rw [extent_append, ← Nat.add_assoc]
      exact hst'.array hat (hk.ground ▸ hst.ground_le)

/-- The keys and values of a hash are on the stack in order when it is made. -/
lemma hash {pairs : List (Expr × Expr)} (hpairs : Emits (.pairs (sortedPairs pairs)) d pos is d')
    (hr : c.Runs T A (.pairs (sortedPairs pairs)) d pos is d') :
    c.Runs T A (.expr (.hash pairs)) d pos (is ++ [⟨.hash, [pairs.length * 2]⟩]) d' := by
  intro k k' b hp hst
  cases hp with
  | hash hp =>
      have hx := hr hp (hst.first (.refl _))
      rw [Part.Follows] at hx
      show b.Follows _ _ _ ((Expr.hash pairs).eval c.call c.env) _
      rw [Expr.eval, Expr.evalPairs_sorted]
      refine hst.bind (g := id) hpairs hst.ground_le (Nat.le_refl _) (hT.stable _ _) hx
        (fun _ _ h => h.1) ?_
      rintro vs b' hk hst' ⟨⟨-, hat⟩, hlen⟩
      rw [length_sortedPairs] at hlen
      rw [← hlen] at hst' ⊢
      rw [extent_append, ← Nat.add_assoc]
      exact hst'.hash hat (hk.ground ▸ hst.ground_le)

/-- An operator in front of an operand works on the value on top. -/
lemma unary {op : String} {code : Opcode} (hop : Operator.unary? op = some code)
    (he : Emits (.expr e) d pos is d') (hr : c.Runs T A (.expr e) d pos is d') :
    c.Runs T A (.expr (.unary op e)) d pos (is ++ [.plain code]) d' := by
  intro k k' b hp hst
  cases hp with
  | unary hp =>
      show b.Follows _ _ _ ((Expr.unary op e).eval c.call c.env) _
      simp only [Expr.eval, hop]
      refine hst.bind (g := fun v => [v]) he hst.ground_le (Nat.le_refl _) (hT.stable _ _)
        (hr hp (hst.first (.refl _))) (fun _ _ h => h) ?_
      rintro v b' hk hst' ⟨-, hat⟩
      rw [extent_append, ← Nat.add_assoc]
      exact hst'.unary hat (hk.ground ▸ hst.ground_le) (Operator.isUnary_of_unary? hop)

/-- An operator between operands works on the two values on top. -/
lemma binary {op : String} {code : Opcode} (hop : Operator.binary? op = some (code, false))
    (he : Emits (.expr e) d pos is d₁) (he' : Emits (.expr e') d₁ (pos + extent is) is' d')
    (hr : c.Runs T A (.expr e) d pos is d₁)
    (hr' : c.Runs T A (.expr e') d₁ (pos + extent is) is' d') :
    c.Runs T A (.expr (.binary op e e')) d pos (is ++ is' ++ [.plain code]) d' := by
  intro k k' b hp hst
  cases hp with
  | swapped hop' _ _ =>
      rw [hop] at hop'
      cases hop'
  | binary _ hp hp' =>
      show b.Follows _ _ _ ((Expr.binary op e e').eval c.call c.env) _
      simp only [Expr.eval, hop]
      rw [List.append_assoc] at hst
      refine hst.two hT he he' (.refl _) hr hr' hp hp' ?_
      intro v w _ b' _ _ hk hst' hat
      rw [extent_append, extent_append, ← Nat.add_assoc, ← Nat.add_assoc]
      exact hst'.binary hat (hk.ground ▸ hst.ground_le) (Operator.isBinary_of_binary? hop)

/-- A comparison the other way round evaluates its right side first, as it is compiled. -/
lemma swapped {op : String} {code : Opcode} (hop : Operator.binary? op = some (code, true))
    (he : Emits (.expr e) d pos is d₁) (he' : Emits (.expr e') d₁ (pos + extent is) is' d')
    (hr : c.Runs T A (.expr e) d pos is d₁)
    (hr' : c.Runs T A (.expr e') d₁ (pos + extent is) is' d') :
    c.Runs T A (.expr (.binary op e' e)) d pos (is ++ is' ++ [.plain code]) d' := by
  intro k k' b hp hst
  cases hp with
  | binary hop' _ _ =>
      rw [hop] at hop'
      cases hop'
  | swapped _ hp hp' =>
      show b.Follows _ _ _ ((Expr.binary op e' e).eval c.call c.env) _
      simp only [Expr.eval, hop]
      rw [List.append_assoc] at hst
      refine hst.two hT he he' (.refl _) hr hr' hp hp' ?_
      intro v w _ b' _ _ hk hst' hat
      rw [extent_append, extent_append, ← Nat.add_assoc, ← Nat.add_assoc]
      exact hst'.binary hat (hk.ground ▸ hst.ground_le) (Operator.isBinary_of_binary? hop)

/-- Indexing works on the two values on top. -/
lemma index (he : Emits (.expr e) d pos is d₁) (he' : Emits (.expr e') d₁ (pos + extent is) is' d')
    (hr : c.Runs T A (.expr e) d pos is d₁)
    (hr' : c.Runs T A (.expr e') d₁ (pos + extent is) is' d') :
    c.Runs T A (.expr (.index e e')) d pos (is ++ is' ++ [.plain .getIndex]) d' := by
  intro k k' b hp hst
  cases hp with
  | index hp hp' =>
      rw [List.append_assoc] at hst
      refine hst.two hT he he' (.refl _) hr hr' hp hp' ?_
      intro v w _ b' _ _ hk hst' hat
      rw [extent_append, extent_append, ← Nat.add_assoc, ← Nat.add_assoc]
      exact hst'.getIndex hat (hk.ground ▸ hst.ground_le)

/-- A call takes callee and arguments from the stack; what happens in it is left to the hypothesis
about calls. -/
lemma call {args : List Expr} (hcalls : c.CallsAgree) (he : Emits (.expr e) d pos is d₁)
    (hargs : Emits (.exprs args) d₁ (pos + extent is) is' d')
    (hr : c.Runs T A (.expr e) d pos is d₁)
    (hr' : c.Runs T A (.exprs args) d₁ (pos + extent is) is' d') :
    c.Runs T A (.expr (.call e args)) d pos (is ++ is' ++ [⟨.call, [args.length]⟩]) d' := by
  intro k k' b hp hst
  cases hp with
  | call hp hp' =>
      rw [List.append_assoc] at hst
      refine hst.bind (g := fun v => [v]) he hst.ground_le (Nat.le_refl _) (hT.stable _ _)
        (hr hp (hst.first hargs.grows)).expr (fun _ _ h => h.2) ?_
      rintro v b₁ hk₁ hst₁ ⟨hv, -, hat₁⟩
      have hsp : b₁.machine.sp = b.machine.sp + 1 := hat₁.sp
      have hg : b₁.machine.ground ≤ b.machine.sp := hk₁.ground ▸ hst.ground_le
      have hx := hr' (hp' v b₁.store hv) (hst₁.first (.refl _))
      rw [Part.Follows] at hx
      refine hst₁.bind (g := id) hargs hg (by omega) (hT.stable _ _) hx (fun _ _ h => h.1) ?_
      rintro vs b₂ hk₂ hst₂ ⟨⟨-, hat₂⟩, hlen⟩
      rw [hsp] at hk₂ hat₂
      rw [← hlen] at hst₂ ⊢
      rw [extent_append, extent_append, ← Nat.add_assoc, ← Nat.add_assoc]
      exact hst₂.apply hcalls (hat₁.append hk₂ hg hat₂) (hk₂.ground ▸ hg)

/-- A function that may be made is made by both engines. -/
lemma function {name : Option String} {params : List String} {body : List Stmt}
    (hem : Emits (.expr (.function name params body)) d pos is d') :
    c.Runs T A (.expr (.function name params body)) d pos is d' := by
  intro k k' b hp hst
  cases hp with
  | function hp => exact hT.function hem hp hst

end Runs

section

variable {yes no : List Stmt} {ys ns : List Instr} {h : Nat} {v : Value}

/-- The condition holds: the first branch is run, and a jump leads over the second one. -/
lemma Stage.firstBranch
    (hst : c.Stage (A d.symbols k) d pos (⟨.jumpNotTruthy, [pos + 3 + extent ys + 3]⟩ ::
      (ys ++ ⟨.jump, [pos + 3 + extent ys + 3 + extent ns]⟩ :: ns)) d' b)
    (hyes : Emits (.branch yes) d (pos + 3) ys d₁)
    (hno : Emits (.branch no) d₁ (pos + 3 + extent ys + 3) ns d')
    (hr : c.Runs T A (.branch yes) d (pos + 3) ys d₁) (hp : T.Passes c (.branch yes) k b.store k₁)
    (skip : T.skips no k₁ k') (hat : b.At pos h [v]) (hg : b.machine.ground ≤ h)
    (hv : v.truthy = true) :
    b.Follows c h (.next b.machine) (Stmt.evalAll c.call c.env .nil yes) fun w =>
      Arrived (A d'.symbols k') (pos + 3 + extent ys + 3 + extent ns) h [w] := by
  have hsp : b.machine.sp = h + 1 := hat.sp
  have hcond : (b.machine.stack.getD h .nil).truthy = v.truthy := hat.head.truthy.symm
  refine hst.silent (pos + 3) h ?_ fun hs => ?_
  · simp only [Machine.execute, Machine.pop, Machine.sp_jump, hsp, Nat.add_sub_cancel]
    exact if_pos (hcond.trans hv)
  have hst' : c.Stage (A d.symbols k) d (pos + 3)
      (ys ++ ⟨.jump, [pos + 3 + extent ys + 3 + extent ns]⟩ :: ns) d'
      (b.moved (pos + 3) h) :=
    { hst with
      agrees := hst.stable.moved hst.agrees _ _
      safe := hs
      ip := rfl
      code := hst.code.tail (hst.fits _ List.mem_cons_self)
      fits := fun i hi => hst.fits i (List.mem_cons_of_mem _ hi) }
  rw [← bind_pure (Stmt.evalAll c.call c.env .nil yes)]
  refine hst'.bind (g := fun v => [v]) hyes hg (Nat.le_refl _) (hT.stable _ _)
    (hr hp (hst'.first hno.grows))
    (fun _ _ h => h) ?_
  rintro w b₁ - hst₁ ⟨-, hat₁⟩
  refine hst₁.silent (pos + 3 + extent ys + 3 + extent ns) b₁.machine.sp rfl fun _ => ?_
  have ha := hst₁.stable.moved hst₁.agrees (pos + 3 + extent ys + 3 + extent ns) b₁.machine.sp
  exact .pure ⟨hT.skips hst₁.good hno skip ha, rfl, hat₁.sp, hat₁.values⟩

/-- The condition does not hold: the machine jumps to the second branch. -/
lemma Stage.secondBranch
    (hst : c.Stage (A d.symbols k) d pos (⟨.jumpNotTruthy, [pos + 3 + extent ys + 3]⟩ ::
      (ys ++ ⟨.jump, [pos + 3 + extent ys + 3 + extent ns]⟩ :: ns)) d' b)
    (hyes : Emits (.branch yes) d (pos + 3) ys d₁)
    (hr : c.Runs T A (.branch no) d₁ (pos + 3 + extent ys + 3) ns d') (skip : T.skips yes k k₁)
    (hp : T.Passes c (.branch no) k₁ b.store k') (hat : b.At pos h [v]) (hv : v.truthy = false) :
    b.Follows c h (.next b.machine) (Stmt.evalAll c.call c.env .nil no) fun w =>
      Arrived (A d'.symbols k') (pos + 3 + extent ys + 3 + extent ns) h [w] := by
  have hsp : b.machine.sp = h + 1 := hat.sp
  have hcond : (b.machine.stack.getD h .nil).truthy = v.truthy := hat.head.truthy.symm
  refine hst.silent (pos + 3 + extent ys + 3) h ?_ fun hs => ?_
  · simp only [Machine.execute, Machine.pop, Machine.sp_jump, hsp, Nat.add_sub_cancel]
    exact if_neg (Bool.eq_false_iff.mp (hcond.trans hv))
  have hcode := (hst.code.tail (hst.fits _ List.mem_cons_self)).right fun i hi =>
    hst.fits i (List.mem_cons_of_mem _ (List.mem_append_left _ hi))
  have hst' : c.Stage (A d₁.symbols k₁) d₁ (pos + 3 + extent ys + 3) ns d'
      (b.moved (pos + 3 + extent ys + 3) h) :=
    { hst with
      stable := hT.stable _ _
      agrees := hT.skips hst.good hyes skip (hst.stable.moved hst.agrees _ _)
      safe := hs
      good := (hyes.good hst.good).1
      ip := rfl
      code := hcode.tail (hst.fits _ (by simp))
      fits := fun i hi => hst.fits i (by simp [hi]) }
  exact hr hp hst'

end

namespace Runs

/-- A conditional runs the branch that its condition chooses; the other one is skipped. -/
lemma cond {yes : List Stmt} {no : Option (List Stmt)} {ys ns : List Instr}
    (he : Emits (.expr e) d pos is d₁) (hyes : Emits (.branch yes) d₁ (pos + extent is + 3) ys d₂)
    (hno : Emits (.branch (no.getD [])) d₂ (pos + extent is + 3 + extent ys + 3) ns d')
    (hr : c.Runs T A (.expr e) d pos is d₁)
    (hry : c.Runs T A (.branch yes) d₁ (pos + extent is + 3) ys d₂)
    (hrn : c.Runs T A (.branch (no.getD [])) d₂ (pos + extent is + 3 + extent ys + 3) ns d') :
    c.Runs T A (.expr (.cond e yes no)) d pos
      (is ++ ⟨.jumpNotTruthy, [pos + extent is + 3 + extent ys + 3]⟩ ::
        (ys ++ ⟨.jump, [pos + extent is + 3 + extent ys + 3 + extent ns]⟩ :: ns)) d' := by
  intro k k' b hp hst
  have hend : pos + extent (is ++ ⟨.jumpNotTruthy, [pos + extent is + 3 + extent ys + 3]⟩ ::
      (ys ++ ⟨.jump, [pos + extent is + 3 + extent ys + 3 + extent ns]⟩ :: ns)) =
        pos + extent is + 3 + extent ys + 3 + extent ns := by
    simp only [extent_append, extent_cons, Instr.size, Opcode.operandBytes, ← Nat.add_assoc]
  rw [hend]
  show b.Follows _ _ _ ((Expr.cond e yes no).eval c.call c.env) _
  rw [Expr.eval_cond]
  cases hp with
  | condYes hp holds hpy skip =>
      refine hst.bind (g := fun v => [v]) he hst.ground_le (Nat.le_refl _) (hT.stable _ _)
        (hr hp (hst.first (hyes.grows.trans hno.grows))).expr (fun _ _ h => h.2) ?_
      rintro v b₁ hk₁ hst₁ ⟨hv, -, hat₁⟩
      rw [if_pos (holds v b₁.store hv)]
      exact hst₁.firstBranch hT hyes hno hry (hpy v b₁.store hv) skip hat₁
        (hk₁.ground ▸ hst.ground_le)
        (holds v b₁.store hv)
  | condNo hp fails skip hpn =>
      refine hst.bind (g := fun v => [v]) he hst.ground_le (Nat.le_refl _) (hT.stable _ _)
        (hr hp (hst.first (hyes.grows.trans hno.grows))).expr (fun _ _ h => h.2) ?_
      rintro v b₁ hk₁ hst₁ ⟨hv, -, hat₁⟩
      rw [if_neg (Bool.eq_false_iff.mp (fails v b₁.store hv))]
      exact hst₁.secondBranch hT hyes hrn skip (hpn v b₁.store hv) hat₁ (fails v b₁.store hv)

/-! ### Lists of expressions -/

omit hT in
lemma noExprs : c.Runs T A (.exprs []) d pos [] d := by
  intro k k' b hp hst
  cases hp
  rw [Part.Follows]
  exact .pure ⟨⟨hst.agrees, hst.ip, rfl, nofun⟩, rfl⟩

omit hT in
lemma noPairs : c.Runs T A (.pairs []) d pos [] d := by
  intro k k' b hp hst
  cases hp
  rw [Part.Follows]
  exact .pure ⟨⟨hst.agrees, hst.ip, rfl, nofun⟩, rfl⟩

/-- Expressions leave their values one above the other. -/
lemma exprs {es : List Expr} (he : Emits (.expr e) d pos is d₁)
    (hes : Emits (.exprs es) d₁ (pos + extent is) is' d') (hr : c.Runs T A (.expr e) d pos is d₁)
    (hr' : c.Runs T A (.exprs es) d₁ (pos + extent is) is' d') :
    c.Runs T A (.exprs (e :: es)) d pos (is ++ is') d' := by
  intro k k' b hp hst
  cases hp with
  | exprs hp hp' =>
      rw [Part.Follows, Expr.evalAll]
      refine hst.bind (g := fun v => [v]) he hst.ground_le (Nat.le_refl _) (hT.stable _ _)
        (hr hp (hst.first hes.grows)).expr (fun _ _ h => h.2) ?_
      rintro v b₁ hk₁ hst₁ ⟨hv, -, hat₁⟩
      have hsp : b₁.machine.sp = b.machine.sp + 1 := hat₁.sp
      have hg : b₁.machine.ground ≤ b.machine.sp := hk₁.ground ▸ hst.ground_le
      have hx := hr' (hp' v b₁.store hv) hst₁
      rw [Part.Follows] at hx
      refine hx.map (by omega) ?_
      rintro vs b₂ hk₂ ⟨⟨ha₂, hat₂⟩, hlen⟩
      rw [hsp] at hk₂ hat₂
      rw [extent_append, ← Nat.add_assoc]
      exact ⟨⟨ha₂, hat₁.append hk₂ hg hat₂⟩, congrArg Nat.succ hlen⟩

/-- Pairs leave keys and values by turns, one above the other. -/
lemma pairs {ps : List (Expr × Expr)} (he : Emits (.expr e) d pos is d₁)
    (he' : Emits (.expr e') d₁ (pos + extent is) is' d₂)
    (hps : Emits (.pairs ps) d₂ (pos + extent is + extent is') is'' d')
    (hr : c.Runs T A (.expr e) d pos is d₁)
    (hr' : c.Runs T A (.expr e') d₁ (pos + extent is) is' d₂)
    (hr'' : c.Runs T A (.pairs ps) d₂ (pos + extent is + extent is') is'' d') :
    c.Runs T A (.pairs ((e, e') :: ps)) d pos (is ++ is' ++ is'') d' := by
  intro k k' b hp hst
  cases hp with
  | pairs hp hp' hp'' =>
      rw [Part.Follows, Expr.sequence_evalPairs]
      rw [List.append_assoc] at hst
      refine hst.two hT he he' hps.grows hr hr' hp hp' ?_
      intro v w σ₁ b₁ hv hw hk₁ hst₁ hat₁
      have hsp : b₁.machine.sp = b.machine.sp + 2 := hat₁.sp
      have hg : b₁.machine.ground ≤ b.machine.sp := hk₁.ground ▸ hst.ground_le
      have hx := hr'' (hp'' v σ₁ w b₁.store hv hw) hst₁
      rw [Part.Follows] at hx
      refine hx.map (by omega) ?_
      rintro vs b₂ hk₂ ⟨⟨ha₂, hat₂⟩, hlen⟩
      rw [hsp] at hk₂ hat₂
      rw [extent_append, extent_append, ← Nat.add_assoc, ← Nat.add_assoc]
      refine ⟨⟨ha₂, hat₁.append hk₂ hg hat₂⟩, ?_⟩
      simp only [List.length_cons, hlen]
      omega

/-! ### Statements -/

/-- An expression as a statement drops its value. -/
lemma expr (he : Emits (.expr e) d pos is d') (hr : c.Runs T A (.expr e) d pos is d') :
    c.Runs T A (.stmt (.expr e)) d pos (is ++ [.pop]) d' := by
  intro k k' b hp hst
  cases hp with
  | binding hs => cases hs
  | expr hp =>
      show b.Follows _ _ _ (e.eval c.call c.env) _
      rw [← bind_pure (e.eval c.call c.env)]
      refine hst.bind (g := fun v => [v]) he hst.ground_le (Nat.le_refl _) (hT.stable _ _)
        (hr hp (hst.first (.refl _))) (fun _ _ h => h) ?_
      rintro v b₁ - hst₁ ⟨-, hat₁⟩
      rw [extent_append, ← Nat.add_assoc]
      exact (hst₁.pop hat₁).mono fun _ _ h => h.1

/-- A return leaves the function with its value. -/
lemma ret (he : Emits (.expr e) d pos is d') (hr : c.Runs T A (.expr e) d pos is d') :
    c.Runs T A (.stmt (.ret e)) d pos (is ++ [.plain .returnValue]) d' := by
  intro k k' b hp hst
  cases hp with
  | binding hs => cases hs
  | ret hp =>
      refine hst.bind (g := fun v => [v]) he hst.ground_le (Nat.le_refl _) (hT.stable _ _)
        (hr hp (hst.first (.refl _))) (fun _ _ h => h) ?_
      rintro v b₁ - hst₁ ⟨-, hat₁⟩
      exact hst₁.ret hat₁

/-- A statement that binds a name. -/
lemma binding {s : Stmt} {n : String} {x : Symbol} {t : SymbolTable} (hs : s.binding? = some (n, e))
    (hx : d.symbols.slotFor s = some (x, t))
    (he : Emits (.expr e) { d with symbols := t } pos is d')
    (hr : c.Runs T A (.expr e) { d with symbols := t } pos is d') :
    c.Runs T A (.stmt s) d pos (is ++ [x.storeInstr]) d' := by
  intro k k' b hp hst
  cases hp with
  | setIndex | ret | expr => cases hs
  | binding hs' opens hp closes =>
      cases hs.symm.trans hs'
      have ha := hT.opens hst.good hx opens hst.agrees
      have hst' := hst.opened hx (hT.stable _ _) ha
      refine hst'.binding hs he (hT.stable _ _) (hr hp (hst'.first (.refl _))) ?_
      exact fun v b₁ hk₁ hst₁ hat₁ => hT.closes hst.good hx hs opens he hp closes ha hk₁ hst₁ hat₁

/-- Writing to an index works on the three values on top. -/
lemma setIndex {e'' : Expr} (he : Emits (.expr e) d pos is d₁)
    (he' : Emits (.expr e') d₁ (pos + extent is) is' d₂)
    (he'' : Emits (.expr e'') d₂ (pos + extent is + extent is') is'' d')
    (hr : c.Runs T A (.expr e) d pos is d₁)
    (hr' : c.Runs T A (.expr e') d₁ (pos + extent is) is' d₂)
    (hr'' : c.Runs T A (.expr e'') d₂ (pos + extent is + extent is') is'' d') :
    c.Runs T A (.stmt (.assign (.index e e') e'')) d pos
      (is ++ is' ++ is'' ++ [.plain .setIndex]) d' := by
  intro k k' b hp hst
  cases hp with
  | binding hs => cases hs
  | setIndex hp hp' hp'' =>
      rw [List.append_assoc, List.append_assoc] at hst
      refine hst.two hT he he' he''.grows hr hr' hp hp' ?_
      intro v w σ₁ b₁ hv hw hk₁ hst₁ hat₁
      have hsp : b₁.machine.sp = b.machine.sp + 2 := hat₁.sp
      have hg : b₁.machine.ground ≤ b.machine.sp := hk₁.ground ▸ hst.ground_le
      refine hst₁.bind (g := fun v => [v]) he'' hg (by omega) (hT.stable _ _)
        (hr'' (hp'' v σ₁ w b₁.store hv hw) (hst₁.first (.refl _))) (fun _ _ h => h) ?_
      rintro u b₂ hk₂ hst₂ ⟨-, hat₂⟩
      rw [hsp] at hk₂ hat₂
      refine (hst₂.setIndex (hat₁.append hk₂ hg hat₂) (hk₂.ground ▸ hg)).map (Nat.le_refl _) ?_
      intro _ b₃ _ h
      simp only [extent_append, ← Nat.add_assoc]
      exact h

/-! ### Branches -/

/-- A statement without a value, as a branch. -/
lemma single {s : Stmt} (hem : Emits (.stmt s) d pos is d') (hr : c.Runs T A (.stmt s) d pos is d')
    (hs : s.isPlain = true) (hne : ∀ e, s ≠ .expr e) (hlast : lastOp is ≠ some .pop) :
    c.Runs T A (.branch [s]) d pos (asBranch is) d' := by
  intro k k' b hp hst
  rw [asBranch, if_neg hlast] at hst ⊢
  rw [Part.Follows, Stmt.evalAll_single, ← Stmt.eval_bind_nil _ _ hs hne]
  cases hp with
  | branch _ hp =>
      cases hp with
      | stmts hp hnone =>
          refine hst.bind (g := fun _ => []) hem hst.ground_le (Nat.le_refl _) (hT.stable _ _)
            (hr hp (hst.first (.refl _))).stmt (fun _ _ h => h.2) ?_
          rintro v b₁ - hst₁ ⟨hv, -, hat₁⟩
          cases hnone v b₁.store hv
          have hsp : b₁.machine.sp = b.machine.sp := hat₁.sp
          rw [extent_append, ← Nat.add_assoc, ← hsp]
          have hnil : Expr.immediate? .nil = some .pushNil := rfl
          exact hst₁.immediate hnil

omit hT in
/-- A statement as a branch: that of an expression leaves its value. -/
lemma branch_expr (hr : c.Runs T A (.expr e) d pos is d') :
    c.Runs T A (.branch [.expr e]) d pos (asBranch (is ++ [.pop])) d' := by
  intro k k' b hp hst
  rw [asBranch_pop] at hst ⊢
  rw [Part.Follows, Stmt.evalAll_single]
  cases hp with
  | branch _ hp =>
      cases hp with
      | stmts hp hnone =>
          cases hp with
          | binding hs => cases hs
          | expr hp =>
              refine (hr hp hst).expr.mono ?_
              rintro v b₁ ⟨hv, harrived⟩
              cases hnone v b₁.store hv
              exact harrived

omit hT in
/-- An empty branch is nil. -/
lemma noStmts : c.Runs T A (.branch []) d pos (asBranch []) d := by
  intro k k' b hp hst
  cases hp with
  | branch _ hp =>
      cases hp
      have hnil : Expr.immediate? .nil = some .pushNil := rfl
      exact hst.immediate hnil

/-- One statement after the other. -/
lemma stmts {s s' : Stmt} {ss : List Stmt} (hem : Emits (.stmt s) d pos is d₁)
    (hem' : Emits (.stmts (s' :: ss)) d₁ (pos + extent is) is' d')
    (hr : c.Runs T A (.stmt s) d pos is d₁)
    (hr' : c.Runs T A (.branch (s' :: ss)) d₁ (pos + extent is) (asBranch is') d') :
    c.Runs T A (.branch (s :: s' :: ss)) d pos (asBranch (is ++ is')) d' := by
  intro k k' b hp hst
  cases hp with
  | branch plain hp =>
      cases hp with
      | stmts hp hp' =>
          have hne := hem'.ne_nil_of_stmts (plain s' (by simp))
          rw [asBranch_append is hne] at hst ⊢
          rw [Part.Follows, Stmt.evalAll]
          refine hst.bind (g := fun _ => []) hem hst.ground_le (Nat.le_refl _) (hT.stable _ _)
            (hr hp (hst.first hem'.grows)).stmt (fun _ _ h => h.2) ?_
          rintro v b₁ - hst₁ ⟨hv, -, hat₁⟩
          have hsp : b₁.machine.sp = b.machine.sp := hat₁.sp
          rw [extent_append, ← Nat.add_assoc, ← hsp,
            Stmt.evalAll_last _ _ (List.cons_ne_nil s' ss) v .nil]
          exact hr' (.branch (fun s hs => plain s (.tail _ hs)) (hp' v b₁.store hv)) hst₁

end Runs

end Site

/-- A part runs; statements are run as branches. -/
def Site.Simulates {K : Type} (c : Site) (T : Tracking K) (A : SymbolTable → K → Joint → Prop)
    (part : Part) (d : Draft) (pos : Nat) (is : List Instr) (d' : Draft) : Prop :=
  match part with
  | .stmt s => c.Runs T A (.stmt s) d pos is d' ∧ c.Runs T A (.branch [s]) d pos (asBranch is) d'
  | .stmts ss => c.Runs T A (.branch ss) d pos (asBranch is) d'
  | part => c.Runs T A part d pos is d'

open Site in
/-- **Compiled code runs as the tree is evaluated**, if calls do. -/
theorem Emits.simulates {K : Type} {c : Site} {T : Tracking K} {A : SymbolTable → K → Joint → Prop}
    (hT : c.Tracks T A) (hcalls : c.CallsAgree) {part : Part} {d d' : Draft} {pos : Nat}
    {is : List Instr} (h : Emits part d pos is d') : c.Simulates T A part d pos is d' := by
  induction h with
  | ident resolved => exact Runs.ident hT resolved
  | constant literal => exact Runs.constant literal
  | immediate literal => exact Runs.immediate literal
  | array hitems ih => exact Runs.array hT hitems ih
  | hash hpairs ih => exact Runs.hash hT hpairs ih
  | function hbody left fits code locals arity compiled _ =>
      exact Runs.function hT (.function hbody left fits code locals arity compiled)
  | unary known hright ih => exact Runs.unary hT known hright ih
  | binary known hleft hright ih ih' => exact Runs.binary hT known hleft hright ih ih'
  | swapped known hright hleft ih ih' => exact Runs.swapped hT known hright hleft ih ih'
  | index hleft hindex ih ih' => exact Runs.index hT hleft hindex ih ih'
  | cond hcond hyes hno ih ih' ih'' => exact Runs.cond hT hcond hyes hno ih ih' ih''
  | call hcallee hargs ih ih' => exact Runs.call hT hcalls hcallee hargs ih ih'
  | noExprs => exact Runs.noExprs
  | exprs hhead htail ih ih' => exact Runs.exprs hT hhead htail ih ih'
  | noPairs => exact Runs.noPairs
  | pairs hkey hvalue htail ih ih' ih'' => exact Runs.pairs hT hkey hvalue htail ih ih' ih''
  | @define name value _ _ _ _ hvalue ih =>
      have hr := Runs.binding hT (s := .define name value) rfl rfl hvalue ih
      refine ⟨hr, Runs.single hT (.define hvalue) hr rfl nofun ?_⟩
      rw [lastOp_append_singleton]
      exact fun h => Symbol.storeInstr_ne_pop _ (Option.some.inj h)
  | @assign name value _ _ _ _ hvalue ih =>
      have hr := Runs.binding hT (s := .assign (.ident name) value) rfl rfl hvalue ih
      refine ⟨hr, Runs.single hT (.assign hvalue) hr rfl nofun ?_⟩
      rw [lastOp_append_singleton]
      exact fun h => Symbol.storeInstr_ne_pop _ (Option.some.inj h)
  | setIndex hleft hindex hvalue ih ih' ih'' =>
      have hr := Runs.setIndex hT hleft hindex hvalue ih ih' ih''
      refine ⟨hr, Runs.single hT (.setIndex hleft hindex hvalue) hr rfl nofun ?_⟩
      rw [lastOp_append_singleton]
      nofun
  | ret hvalue ih =>
      have hr := Runs.ret hT hvalue ih
      refine ⟨hr, Runs.single hT (.ret hvalue) hr rfl nofun ?_⟩
      rw [lastOp_append_singleton]
      nofun
  | expr hvalue ih => exact ⟨Runs.expr hT hvalue ih, Runs.branch_expr ih⟩
  | block _ _ =>
      -- there is no way to keep track of the names of a block
      refine ⟨fun k k' b hp _ => absurd hp.isPlain (by simp [Stmt.isPlain]), fun k k' b hp _ => ?_⟩
      cases hp with
      | branch _ hp =>
          cases hp with
          | stmts hp _ => exact absurd hp.isPlain (by simp [Stmt.isPlain])
  | noStmts => exact Runs.noStmts
  | @stmts s ss _ _ _ _ _ _ hhead htail ih ih' =>
      cases ss with
      | nil =>
          cases htail
          rw [List.append_nil]
          exact ih.2
      | cons s' ss => exact Runs.stmts hT hhead htail ih.1 ih'
  | branch _ ih => exact ih

end Marmoset
