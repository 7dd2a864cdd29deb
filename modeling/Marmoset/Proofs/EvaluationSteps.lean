import Marmoset.Proofs.Calls
import Marmoset.Proofs.FunctionFree

/-!
# What evaluation is made of

The evaluation of a tree is a sequence of single steps.  Most of them are about values
(`Eval.Neutral`): they make and change arrays and hashes, print, and fail because of the values they
are given.  The others look up and bind names, make and call functions, and reject what no program
should hold.  `Eval.Steps` lists them.  A property of steps that each of these has, and that one
step hands on to the next, is a property of the evaluation of every tree.

The tree may be known to consist of expressions and statements of some kind (`Expr.every`).  Then a
step is only asked for where such an expression or statement gives rise to it.

* **`Eval.Steps.stmt`** — the property holds of the evaluation of a statement.
* `Eval.Steps.stmts`, `Eval.Steps.top` — and of statements one after the other.
* **`Evaluator.callFunction_cases`** — what a call is made of: it is refused, or the body of the
  function is evaluated.
-/

namespace Marmoset

/-- Whether something can be assigned to the expression. -/
def Expr.isAssignable : Expr → Bool
  | .ident _ | .index _ _ => true
  | _ => false

section

variable {p : Expr → Bool} {q : Stmt → Bool}

/-- What holds of every node holds of every tree, kind by kind. -/
lemma Tree.closed_every_of_forall (hp : ∀ e, p e = true) (hq : ∀ s, q s = true) :
    Tree.Closed (fun e => e.every p q = true) (fun s => s.every p q = true) where
  ident _ := hp _
  integer _ := hp _
  float _ := hp _
  string _ := hp _
  boolean _ := hp _
  nil := hp _
  array items ih := by simp [Expr.every, hp, Expr.everyOf_iff.mpr ih]
  hash pairs ih := by simp [Expr.every, hp, Expr.everyPair_iff.mpr ih]
  function name params body ih := by simp [Expr.every, hp, Stmt.everyOf_iff.mpr ih]
  unary op right ih := by simp [Expr.every, hp, ih]
  binary op left right ih ih' := by simp [Expr.every, hp, ih, ih']
  index left index ih ih' := by simp [Expr.every, hp, ih, ih']
  cond condition yes no ih ihyes ihno := by
    have hyes := Stmt.everyOf_iff.mpr ihyes
    have hno := Stmt.everyOf_iff.mpr ihno
    cases no with
    | none => simp [Expr.every, hp, ih, hyes]
    | some no =>
        rw [Option.getD_some] at hno
        simp [Expr.every, hp, ih, hyes, hno]
  call callee args ih ihargs := by simp [Expr.every, hp, ih, Expr.everyOf_iff.mpr ihargs]
  define name value ih := by simp [Stmt.every, hq, ih]
  assign target value ih ih' := by simp [Stmt.every, hq, ih, ih']
  ret value ih := by simp [Stmt.every, hq, ih]
  expr e ih := by simp [Stmt.every, hq, ih]
  block body ih := by simp [Stmt.every, hq, Stmt.everyOf_iff.mpr ih]

/-- What holds of every expression and every statement there is holds of those in a tree. -/
lemma Stmt.everyOf_of_forall (hp : ∀ e, p e = true) (hq : ∀ s, q s = true) (ss : List Stmt) :
    Stmt.everyOf p q ss = true :=
  Stmt.everyOf_iff.mpr fun s _ => (Tree.closed_every_of_forall hp hq).forall_stmt s

end

/-- `P` holds of the expression and, if it is an index expression, of its two parts: an assignment
to one works on its parts without it. -/
def Expr.WithParts (P : Expr → Prop) (e : Expr) : Prop :=
  P e ∧ ∀ left index, e = .index left index → P left ∧ P index

/-! ## Faults that are about the tree -/

/-- Whether a fault is about the tree of a program, and not about its values. -/
def Fault.isOfTree : Fault → Bool
  | .undefinedVariable _ | .unknownOperator _ | .invalidTarget _ => true
  | _ => false

section

variable {f : Fault}

/-- Arithmetic meets faults about values only. -/
lemma Value.isOfTree_arithmetic (op : Opcode) {v w : Value}
    (h : Value.arithmetic op v w = .error f) :
    f.isOfTree = false := by
  simp only [Value.arithmetic] at h
  split at h
  · split at h
    · split at h
      · cases h
      · cases h
        rfl
    · cases h
      rfl
  · split at h
    · split at h
      · cases h
      · cases h
        rfl
    · split at h
      · cases h
      · cases h
        rfl
    · cases h
      rfl

/-- So do operators between values. -/
lemma Value.isOfTree_binary {op : Opcode} {v w : Value} (h : Value.binary op v w = .error f) :
    f.isOfTree = false := by
  have hcompare (h : Value.compare op v w = .error f) : f.isOfTree = false := by
    unfold Value.compare at h
    split at h
    · cases h
    · cases h
      rfl
  cases op with
  | equal | notEqual | greater | greaterEqual => exact hcompare h
  | and | or => cases h
  | div => exact isOfTree_arithmetic .div h
  | _ => exact isOfTree_arithmetic _ h

/-- So do operators in front of a value. -/
lemma Value.isOfTree_unary {op : Opcode} {v : Value} (h : Value.unary op v = .error f) :
    f.isOfTree = false := by
  have hnegate (h : v.negate = .error f) : f.isOfTree = false := by
    cases v with
    | integer | float => cases h
    | _ =>
        cases h
        rfl
  cases op with
  | bang => cases h
  | _ => exact hnegate h

/-- The faults of indexing are about values, and so of the tree. -/
lemma Store.isOfTree_getIndex {s : Store} {v w : Value} (h : s.getIndex v w = .error f) :
    f.isOfTree = false := by
  unfold Store.getIndex at h
  split at h
  · split at h <;> cases h
  · split at h
    · cases h
    · cases h
      rfl
  · cases h
    rfl

/-- So does writing to an index. -/
lemma Store.isOfTree_setIndex {s : Store} {v w u : Value} (h : s.setIndex v w u = .error f) :
    f.isOfTree = false := by
  unfold Store.setIndex at h
  split at h
  · split at h
    · split_ifs at h
      cases h
      rfl
    · cases h
      rfl
  · split at h
    · cases h
    · cases h
      rfl
  · cases h
    rfl

/-- So does pairing up keys and values. -/
lemma Store.isOfTree_pairUp {acc : Bindings HashKey Value} {items : List Value}
    (h : pairUp acc items = .error f) :
    f.isOfTree = false := by
  fun_induction pairUp acc items with
  | case1 acc key value rest k hk ih => exact ih h
  | case2 acc key value rest hk =>
      cases h
      rfl
  | case3 acc items hne => cases h

end

/-! ## Arrays, hashes and output -/

namespace Store

variable {σ σ' σ'' : Store}

/-- What becomes of a store besides its environments: the functions stay as they are and new ones
are made, the arrays and hashes stay there with other contents perhaps, and something is printed. -/
structure Adds (σ σ' : Store) : Prop where
  functions : ∀ (i : Nat) f, σ.functions[i]? = some f → σ'.functions[i]? = some f
  closures : σ'.closures = σ.closures
  identities : σ'.identities = σ.identities
  arrays : σ.arrays.size ≤ σ'.arrays.size
  hashes : σ.hashes.size ≤ σ'.hashes.size
  printed : ∃ text, σ'.printed = σ.printed ++ text

namespace Adds

lemma refl (σ : Store) : σ.Adds σ :=
  ⟨fun _ _ h => h, rfl, rfl, Nat.le_refl _, Nat.le_refl _, "", String.append_empty.symm⟩

/-- What becomes of a store in two steps. -/
lemma trans (h : σ.Adds σ') (h' : σ'.Adds σ'') : σ.Adds σ'' where
  functions i f hf := h'.functions i f (h.functions i f hf)
  closures := h'.closures.trans h.closures
  identities := h'.identities.trans h.identities
  arrays := Nat.le_trans h.arrays h'.arrays
  hashes := Nat.le_trans h.hashes h'.hashes
  printed := by
    obtain ⟨text, ht⟩ := h.printed
    obtain ⟨text', ht'⟩ := h'.printed
    exact ⟨text ++ text', by rw [ht', ht, String.append_assoc]⟩

lemma newArray (σ : Store) (items : Array Value) : σ.Adds (σ.newArray items).2 :=
  { refl σ with arrays := by simp [Store.newArray] }

lemma newHash (σ : Store) (pairs : Bindings HashKey Value) : σ.Adds (σ.newHash pairs).2 :=
  { refl σ with hashes := by simp [Store.newHash] }

lemma setElement (σ : Store) (ref i : Nat) (v : Value) : σ.Adds (σ.setElement ref i v) :=
  { refl σ with arrays := by simp [Store.setElement] }

lemma setEntry (σ : Store) (ref : Nat) (key : HashKey) (v : Value) :
    σ.Adds (σ.setEntry ref key v) :=
  { refl σ with hashes := by simp [Store.setEntry] }

lemma print (σ : Store) (line : String) : σ.Adds (σ.print line) :=
  { refl σ with printed := ⟨line ++ "\n", String.append_assoc⟩ }

lemma newFunction (σ : Store) (f : FunctionObject) : σ.Adds (σ.newFunction f).2 :=
  { refl σ with
    functions := fun i g hg => by
      obtain ⟨hi, -⟩ := Array.getElem?_eq_some_iff.mp hg
      rw [Store.newFunction, Array.getElem?_push_lt hi, ← hg, Array.getElem?_eq_getElem hi] }

lemma environments (σ : Store) (es : Array Environment) : σ.Adds { σ with environments := es } :=
  { refl σ with }

end Adds

end Store

/-- Builtins make arrays and print, and nothing else. -/
lemma Builtin.adds_call (b : Builtin) (s : Store) (args : List Value) :
    s.Adds (b.call s args).2 := by
  have hprint (vs : List Value) (s : Store) : s.Adds (printAll s vs) := by
    induction vs generalizing s with
    | nil => exact .refl s
    | cons v vs ih => exact (Store.Adds.print s _).trans (ih _)
  unfold Builtin.call
  split
  · exact hprint _ s
  · exact .refl s
  · exact .refl s
  · exact .refl s
  · exact .refl s
  · exact .refl s
  · unfold Builtin.callRest
    split
    · dsimp only
      split_ifs
      · exact .refl s
      · exact .newArray s _
    · exact .refl s
  · unfold Builtin.callPush
    split
    · exact .newArray s _
    · exact .refl s
  · exact .refl s
  · exact .refl s

namespace Eval

/-- A step that is about values: it makes no function and binds no name, and its faults are not
about the tree. -/
structure Neutral {α : Type} (x : Eval α) : Prop where
  beside : ∀ σ : Store, σ.Beside (x.after σ)
  adds : ∀ σ : Store, σ.Adds (x.after σ)
  fault : ∀ σ f σ', x σ = .error (.fault f) σ' → f.isOfTree = false

namespace Neutral

variable {α : Type}

lemma pure (a : α) : Neutral (Pure.pure a : Eval α) :=
  ⟨.refl, .refl, fun _ _ _ h => by cases h⟩

/-- To leave with a value changes nothing. -/
lemma returned (v : Value) : Neutral (throw (.returned v) : Eval α) :=
  ⟨.refl, .refl, fun _ _ _ h => by cases h⟩

/-- To stop with a fault about values changes nothing. -/
lemma fail {f : Fault} (hf : f.isOfTree = false) : Neutral (Eval.fail f : Eval α) :=
  ⟨.refl, .refl, fun _ _ _ h => by
    cases h
    exact hf⟩

/-- An outcome that was computed beforehand changes nothing. -/
lemma ofExcept {r : Except Fault α} (h : ∀ f, r = .error f → f.isOfTree = false) :
    (Eval.ofExcept r).Neutral := by
  cases r with
  | ok a => exact .pure a
  | error f => exact .fail (h f rfl)

lemma newArray (items : Array Value) : (alloc fun s => s.newArray items).Neutral :=
  ⟨fun _ => ⟨rfl, rfl, rfl⟩, fun σ => .newArray σ items, fun _ _ _ h => by cases h⟩

/-- A builtin is about values. -/
lemma builtin (b : Builtin) (args : List Value) : (alloc fun s => b.call s args).Neutral :=
  ⟨fun σ => b.beside_call σ args, fun σ => b.adds_call σ args, fun _ _ _ h => by cases h⟩

/-- Indexing is about values and changes nothing. -/
lemma getIndex (v w : Value) : (Eval.getIndex v w).Neutral where
  beside := Beside.getIndex v w
  adds σ := by
    rw [after, Eval.getIndex]
    cases σ.getIndex v w with
    | ok _ => exact .refl σ
    | error _ => exact .refl σ
  fault σ f σ' h := by
    unfold Eval.getIndex at h
    split at h
    · cases h
    · next hr =>
        cases h
        exact Store.isOfTree_getIndex hr

/-- Writing to an index changes contents only. -/
lemma setIndex (v w u : Value) : (Eval.setIndex v w u).Neutral where
  beside := Beside.setIndex v w u
  adds σ := by
    rw [after, Eval.setIndex]
    cases hs : σ.setIndex v w u with
    | error _ => exact .refl σ
    | ok σ' =>
        unfold Store.setIndex at hs
        split at hs
        · split at hs
          · split_ifs at hs
            cases hs
            exact .setElement σ _ _ u
          · cases hs
        · split at hs
          · cases hs
            exact .setEntry σ _ _ u
          · cases hs
        · cases hs
  fault σ f σ' h := by
    unfold Eval.setIndex at h
    split at h
    · cases h
    · next hr =>
        cases h
        exact Store.isOfTree_setIndex hr

/-- Building a hash adds that hash, or meets a fault about a key. -/
lemma buildHash (vs : List Value) : (Eval.buildHash vs).Neutral where
  beside := Beside.buildHash vs
  adds σ := by
    rw [after, Eval.buildHash, Store.buildHash]
    cases Store.pairUp .empty vs with
    | ok _ => exact .newHash σ _
    | error _ => exact .refl σ
  fault σ f σ' h := by
    unfold Eval.buildHash Store.buildHash at h
    cases hr : Store.pairUp .empty vs with
    | ok ps =>
        rw [hr] at h
        cases h
    | error g =>
        rw [hr] at h
        cases h
        exact Store.isOfTree_pairUp hr

end Neutral

/-! ## Steps of the evaluation of a tree -/

/-- `R` holds of the single steps of evaluation in the environment `env`, where all expressions pass
`p` and all statements pass `q`, and of steps one after the other. -/
structure Steps (call : Nat → List Value → Eval Value) (env : Nat) (p : Expr → Bool)
    (q : Stmt → Bool) (R : {α : Type} → Eval α → Prop) : Prop where
  neutral {α : Type} {x : Eval α} (h : x.Neutral) : R x
  bind {α β : Type} {x : Eval α} {f : α → Eval β} (hx : R x) (hf : ∀ a, R (f a)) : R (x >>= f)
  lookup (name : String) : R (Eval.lookup env name)
  bindName (name : String) (v : Value) : R (Eval.bind env name v)
  newFunction (name : Option String) (params : List String) (body : List Stmt)
    (h : Stmt.everyOf p q body = true) :
    R (alloc fun s => s.newFunction ⟨name, params, body, env⟩)
  unknownUnary (op : String) (right : Expr) (h : p (.unary op right) = true)
    (hop : Operator.unary? op = none) :
    R (Eval.fail (.unknownOperator op) : Eval Value)
  unknownBinary (op : String) (left right : Expr) (h : p (.binary op left right) = true)
    (hop : Operator.binary? op = none) : R (Eval.fail (.unknownOperator op) : Eval Value)
  invalidTarget (target value : Expr) (h : q (.assign target value) = true)
    (ht : target.isAssignable = false) :
    R (Eval.fail (.invalidTarget target.text) : Eval Value)
  call (ref : Nat) (args : List Value) : R (call ref args)

namespace Steps

variable {call : Nat → List Value → Eval Value} {env : Nat} {p : Expr → Bool} {q : Stmt → Bool}
  {R : {α : Type} → Eval α → Prop}

lemma pure {α : Type} (h : Steps call env p q R) (a : α) :
    R (Pure.pure a : Eval α) := h.neutral (.pure a)

/-- Expressions are steps one after the other. -/
lemma exprs (h : Steps call env p q R) {es : List Expr} (hes : ∀ e ∈ es, R (e.eval call env)) :
    R (Expr.evalAll call env es) := by
  induction es with
  | nil => exact h.pure []
  | cons e es ih =>
      obtain ⟨he, hes⟩ := List.forall_mem_cons.mp hes
      exact h.bind he fun v => h.bind (ih hes) fun vs => h.pure _

/-- So are pairs, each a key and a value. -/
lemma pairs (h : Steps call env p q R) {ps : List (Expr × Expr)}
    (hps : ∀ x ∈ ps, R (x.1.eval call env) ∧ R (x.2.eval call env)) :
    R (sequence (Expr.evalPairs call env ps)) := by
  induction ps with
  | nil => exact h.pure []
  | cons x ps ih =>
      obtain ⟨⟨hk, hv⟩, hps⟩ := List.forall_mem_cons.mp hps
      rw [Expr.sequence_evalPairs]
      exact h.bind hk fun k => h.bind hv fun v => h.bind (ih hps) fun items => h.pure _

/-- So are statements, of which the last one has the value. -/
lemma stmts_of (h : Steps call env p q R) {ss : List Stmt} (hss : ∀ s ∈ ss, R (s.eval call env))
    (last : Value) :
    R (Stmt.evalAll call env last ss) := by
  induction ss generalizing last with
  | nil => exact h.pure last
  | cons s ss ih =>
      obtain ⟨hs, hss⟩ := List.forall_mem_cons.mp hss
      exact h.bind hs fun v => ih hss v

/-- A call is one of a function, one of a builtin, or refused. -/
lemma apply (h : Steps call env p q R) (f : Value) (args : List Value) :
    R (Eval.apply call f args) := by
  cases f with
  | function ref => exact h.call ref args
  | builtin b => exact h.neutral (.builtin b args)
  | _ => exact h.neutral (.fail rfl)

/-- Every kind of tree is made of these steps, if its parts are. -/
lemma closed (h : Steps call env p q R) :
    Tree.Closed (Expr.WithParts fun e => e.every p q = true → R (e.eval call env))
      (fun s => s.every p q = true → R (s.eval call env)) where
  ident name := ⟨fun _ => h.lookup name, by simp⟩
  integer n := ⟨fun _ => h.pure _, by simp⟩
  float x := ⟨fun _ => h.pure _, by simp⟩
  string s := ⟨fun _ => h.pure _, by simp⟩
  boolean b := ⟨fun _ => h.pure _, by simp⟩
  nil := ⟨fun _ => h.pure _, by simp⟩
  array items ih := by
    refine ⟨fun he => ?_, by simp⟩
    have hitems := Expr.everyOf_iff.mp (Bool.and_eq_true_iff.mp he).2
    exact h.bind (h.exprs fun e hmem => (ih e hmem).1 (hitems e hmem)) fun vs =>
      h.neutral (.newArray _)
  hash pairs ih := by
    refine ⟨fun he => ?_, by simp⟩
    have hpairs := Expr.everyPair_iff.mp (Bool.and_eq_true_iff.mp he).2
    rw [Expr.eval, Expr.evalPairs_sorted]
    refine h.bind (h.pairs fun x hx => ?_) fun items => h.neutral (.buildHash items)
    obtain ⟨hk, hv⟩ := ih x (mem_sortedPairs.mp hx)
    obtain ⟨hk', hv'⟩ := hpairs x (mem_sortedPairs.mp hx)
    exact ⟨hk.1 hk', hv.1 hv'⟩
  function name params body _ :=
    ⟨fun he => h.newFunction name params body (Bool.and_eq_true_iff.mp he).2, by simp⟩
  unary op right ih := by
    refine ⟨fun he => ?_, by simp⟩
    obtain ⟨hp, hr⟩ := Bool.and_eq_true_iff.mp he
    refine h.bind (ih.1 hr) fun v => ?_
    cases hop : Operator.unary? op with
    | some code => exact h.neutral (.ofExcept fun _ => Value.isOfTree_unary)
    | none => exact h.unknownUnary op right hp hop
  binary op left right ih ih' := by
    refine ⟨fun he => ?_, by simp⟩
    obtain ⟨⟨hp, hl⟩, hr⟩ := (Bool.and_eq_true_iff.mp he).imp_left Bool.and_eq_true_iff.mp
    rw [Expr.eval]
    split
    · exact h.bind (ih'.1 hr) fun r => h.bind (ih.1 hl) fun l =>
        h.neutral (.ofExcept fun _ => Value.isOfTree_binary)
    · exact h.bind (ih.1 hl) fun l => h.bind (ih'.1 hr) fun r =>
        h.neutral (.ofExcept fun _ => Value.isOfTree_binary)
    · next hop =>
        exact h.bind (ih.1 hl) fun l => h.bind (ih'.1 hr) fun r =>
          h.unknownBinary op left right hp hop
  index left index ih ih' := by
    refine ⟨fun he => ?_, fun l i heq => ?_⟩
    · obtain ⟨⟨-, hl⟩, hi⟩ := (Bool.and_eq_true_iff.mp he).imp_left Bool.and_eq_true_iff.mp
      exact h.bind (ih.1 hl) fun l => h.bind (ih'.1 hi) fun i => h.neutral (.getIndex l i)
    · cases heq
      exact ⟨ih.1, ih'.1⟩
  cond condition yes no ih ihyes ihno := by
    refine ⟨fun he => ?_, by simp⟩
    obtain ⟨hc, hyes, hno⟩ := Expr.every_cond he
    rw [Expr.eval_cond]
    refine h.bind (ih.1 hc) fun v => ?_
    split_ifs
    · exact h.stmts_of (fun s hs => ihyes s hs (Stmt.everyOf_iff.mp hyes s hs)) _
    · exact h.stmts_of (fun s hs => ihno s hs (Stmt.everyOf_iff.mp hno s hs)) _
  call callee args ih ihargs := by
    refine ⟨fun he => ?_, by simp⟩
    obtain ⟨⟨-, hf⟩, hargs⟩ := (Bool.and_eq_true_iff.mp he).imp_left Bool.and_eq_true_iff.mp
    have hvalues := h.exprs fun e hmem => (ihargs e hmem).1 (Expr.everyOf_iff.mp hargs e hmem)
    exact h.bind (ih.1 hf) fun f => h.bind hvalues fun vs => h.apply f vs
  define name value ih hs :=
    h.bind (ih.1 (Bool.and_eq_true_iff.mp hs).2) fun v =>
      h.bind (h.bindName name v) fun _ => h.pure _
  assign target value ih ih' hs := by
    obtain ⟨⟨hq, ht⟩, hv⟩ := (Bool.and_eq_true_iff.mp hs).imp_left Bool.and_eq_true_iff.mp
    cases target with
    | ident name => exact h.bind (ih'.1 hv) fun v => h.bind (h.bindName name v) fun _ => h.pure _
    | index left index =>
        obtain ⟨hl, hi⟩ := ih.2 left index rfl
        obtain ⟨⟨-, hl'⟩, hi'⟩ := (Bool.and_eq_true_iff.mp ht).imp_left Bool.and_eq_true_iff.mp
        exact h.bind (hl hl') fun l => h.bind (hi hi') fun i => h.bind (ih'.1 hv) fun v =>
          h.bind (h.neutral (.setIndex l i v)) fun _ => h.pure _
    | _ => exact h.invalidTarget _ value hq rfl
  ret value ih hs := h.bind (ih.1 (Bool.and_eq_true_iff.mp hs).2) fun v => h.neutral (.returned v)
  expr e ih hs := ih.1 (Bool.and_eq_true_iff.mp hs).2
  block body ih hs :=
    h.stmts_of (fun s hmem =>
      ih s hmem (Stmt.everyOf_iff.mp (Bool.and_eq_true_iff.mp hs).2 s hmem)) _

/-- **What holds of the steps holds of the statement.** -/
theorem stmt (h : Steps call env p q R) {s : Stmt} (hs : s.every p q = true) :
    R (s.eval call env) :=
  h.closed.forall_stmt s hs

/-- So it does of statements one after the other. -/
theorem stmts (h : Steps call env p q R) {ss : List Stmt} (hss : Stmt.everyOf p q ss = true)
    (last : Value) :
    R (Stmt.evalAll call env last ss) :=
  h.stmts_of (fun _ hs => h.stmt (Stmt.everyOf_iff.mp hss _ hs)) last

/-- What holds of the steps of an evaluator holds of a whole program. -/
theorem top (h : Steps call env p q R) {ss : Program} (hss : Stmt.everyOf p q ss = true)
    (last : Value) :
    R (Evaluator.evalTop call env last ss) := by
  induction ss generalizing last with
  | nil => exact h.pure last
  | cons s ss ih =>
      obtain ⟨hs, hss⟩ := Bool.and_eq_true_iff.mp hss
      exact h.bind (h.stmt hs) fun v => ih hss _

end Steps

end Eval

/-! ## Calls -/

namespace Evaluator

/-- **What a call is made of.**  It is refused and nothing is changed, or there is a function with
as many parameters, whose body is evaluated in a new environment with one call less that may be
nested. -/
theorem callFunction_cases (maxFrames left ref : Nat) (args : List Value) (σ : Store) :
    (∃ f : Fault, f.isOfTree = false ∧
      callFunction maxFrames left ref args σ = .error (.fault f) σ) ∨
      ∃ f n, σ.functions[ref]? = some f ∧ args.length = f.params.length ∧ left = n + 1 ∧
        callFunction maxFrames left ref args σ =
          settle (Stmt.evalAll (callFunction maxFrames n) (enter σ ref f args).1 .nil f.body
            (enter σ ref f args).2) := by
  unfold callFunction
  cases hf : σ.functions[ref]? with
  | none => exact .inl ⟨_, rfl, rfl⟩
  | some f =>
      dsimp only
      by_cases hlen : args.length = f.params.length
      · rw [if_neg (not_not.mpr hlen)]
        cases left with
        | zero => exact .inl ⟨_, rfl, rfl⟩
        | succ n => exact .inr ⟨f, n, rfl, hlen, rfl, rfl⟩
      · rw [if_pos hlen]
        exact .inl ⟨_, rfl, rfl⟩

/-- Leaving a function changes nothing. -/
lemma settle_after (x : Eval Value) (σ : Store) :
    Eval.after (fun σ => settle (x σ)) σ = x.after σ := by
  unfold Eval.after
  dsimp only
  cases x σ with
  | ok v σ' => rfl
  | error e σ' =>
      cases e with
      | returned v => rfl
      | fault f => rfl

/-- A fault goes through. -/
lemma settle_eq_fault {r : EStateM.Result Exit Store Value} {f : Fault} {σ : Store}
    (h : settle r = .error (.fault f) σ) : r = .error (.fault f) σ := by
  cases r with
  | ok v σ' => cases h
  | error e σ' =>
      cases e with
      | returned v => cases h
      | fault g => exact h

/-- The environment of a call is new and lies in that of the function; nothing else in the store is
changed. -/
lemma enter_eq (σ : Store) (ref : Nat) (f : FunctionObject) (args : List Value) :
    ∃ es, enter σ ref f args = (σ.environments.size, { σ with environments := es }) ∧
      es.size = σ.environments.size + 1 ∧ outerOf es σ.environments.size = some f.environment := by
  obtain ⟨es₁, h₁, hsize₁, houter₁, -⟩ := boundTo_own σ ref f
  obtain ⟨es, heq, hsize, houter⟩ :=
    Store.beside_bindAll { σ with environments := es₁ } σ.environments.size f.params args
  refine ⟨es, ?_, hsize.trans hsize₁, ?_⟩
  · rw [← heq, ← h₁]
    rfl
  · rw [houter, houter₁, if_pos rfl]

end Evaluator

end Marmoset
