import Marmoset.Proofs.EnvironmentChains

/-!
# Evaluation without a bound

`Evaluator.callFunction` is told beforehand how many calls may be nested in it.  Here the evaluator
is written as a plain recursion: a counter goes up by one when a call begins and down by one when it
is over, a call at the limit of the counter fails, and nothing else would make the recursion stop.
Whether it stops is seen by how deep it goes: every function is given a `limit` for the depth of the
recursion, and has no result (`none`) if this is not enough.  What ends has one and the same outcome
from some limit on (`Unbounded.Ends`).

* **`Unbounded.mirrors_expr`** and its companions — in a grounded store everything ends, with the
  outcome of the bounded evaluator and with the counter as before.
-/

namespace Marmoset

/-- A step of the evaluator that knows how deep the calls are nested.  It may have no result. -/
abbrev Unbounded (α : Type) := ExceptT Exit (StateT (Nat × Store) Option) α

namespace Unbounded

/-- What a step of the bounded evaluator comes to, with the counter as it is. -/
def outcome {α : Type} (x : Eval α) (depth : Nat) (s : Store) : Except Exit α × Nat × Store :=
  match x s with
  | .ok a s => (.ok a, depth, s)
  | .error e s => (.error e, depth, s)

/-- A step that makes no call. -/
def lift {α : Type} (x : Eval α) : Unbounded α := fun (depth, s) => some (outcome x depth s)

/-- The limit is not enough. -/
def stuck {α : Type} : Unbounded α := fun _ => none

/-- What a name is bound to; builtins have their names unless these are bound. -/
def lookup (limit env : Nat) (name : String) : Unbounded Value := fun (depth, s) => do
  match ← s.search name limit env with
  | some v => some (.ok v, depth, s)
  | none =>
    match Builtin.ofName? name with
    | some b => some (.ok (.builtin b), depth, s)
    | none => some (.error (.fault (.undefinedVariable name)), depth, s)

/-- A return leaves the function, a fault goes on. -/
def settle : Except Exit Value → Except Exit Value
  | .error (.returned v) => .ok v
  | r => r

mutual

/-- The value of an expression in an environment. -/
def expr (maxFrames : Nat) : (limit : Nat) → (env : Nat) → Expr → Unbounded Value
  | 0, _, _ => stuck
  | n + 1, env, e =>
    match e with
    | .ident name => lookup n env name
    | .integer n => pure (.integer n)
    | .float x => pure (.float x)
    | .string s => pure (.string s)
    | .boolean b => pure (.boolean b)
    | .nil => pure .nil
    | .array items => do
      let vs ← exprs maxFrames n env items
      lift (Eval.alloc fun s => s.newArray vs.toArray)
    | .hash pairs => do
      let items ← pairItems maxFrames n env (sortedPairs pairs)
      lift (Eval.buildHash items)
    | .function name params body =>
      lift (Eval.alloc fun s => s.newFunction ⟨name, params, body, env⟩)
    | .unary op right => do
      let v ← expr maxFrames n env right
      match Operator.unary? op with
      | some code => lift (Eval.ofExcept (Value.unary code v))
      | none => lift (Eval.fail (.unknownOperator op))
    | .binary op left right =>
      match Operator.binary? op with
      | some (code, true) => do
        let r ← expr maxFrames n env right
        let l ← expr maxFrames n env left
        lift (Eval.ofExcept (Value.binary code r l))
      | some (code, false) => do
        let l ← expr maxFrames n env left
        let r ← expr maxFrames n env right
        lift (Eval.ofExcept (Value.binary code l r))
      | none => do
        let _ ← expr maxFrames n env left
        let _ ← expr maxFrames n env right
        lift (Eval.fail (.unknownOperator op))
    | .index left index => do
      let l ← expr maxFrames n env left
      let i ← expr maxFrames n env index
      lift (Eval.getIndex l i)
    | .cond condition yes no => do
      let v ← expr maxFrames n env condition
      stmts maxFrames n env .nil (if v.truthy then yes else no.getD [])
    | .call callee args => do
      let f ← expr maxFrames n env callee
      let vs ← exprs maxFrames n env args
      match f with
      | .function ref => call maxFrames n ref vs
      | .builtin b => lift (Eval.alloc fun s => b.call s vs)
      | v => lift (Eval.fail (.notCallable v.kind))
termination_by structural n => n

/-- Does a statement. -/
def stmt (maxFrames : Nat) : (limit : Nat) → (env : Nat) → Stmt → Unbounded Value
  | 0, _, _ => stuck
  | n + 1, env, s =>
    match s with
    | .define name value => do
      let v ← expr maxFrames n env value
      lift (Eval.bind env name v)
      return .nil
    | .assign (.ident name) value => do
      let v ← expr maxFrames n env value
      lift (Eval.bind env name v)
      return .nil
    | .assign (.index left index) value => do
      let l ← expr maxFrames n env left
      let i ← expr maxFrames n env index
      let v ← expr maxFrames n env value
      lift (Eval.setIndex l i v)
      return .nil
    | .assign target _ => lift (Eval.fail (.invalidTarget target.text))
    | .ret value => do
      let v ← expr maxFrames n env value
      throw (.returned v)
    | .expr e => expr maxFrames n env e
    | .block body => stmts maxFrames n env .nil body
termination_by structural n => n

/-- The values of expressions from left to right. -/
def exprs (maxFrames : Nat) : (limit : Nat) → (env : Nat) → List Expr → Unbounded (List Value)
  | 0, _, _ => stuck
  | _ + 1, _, [] => pure []
  | n + 1, env, e :: es => do
    let v ← expr maxFrames n env e
    let vs ← exprs maxFrames n env es
    return v :: vs
termination_by structural n => n

/-- Keys and values by turns. -/
def pairItems (maxFrames : Nat) :
    (limit : Nat) → (env : Nat) → List (Expr × Expr) → Unbounded (List Value)
  | 0, _, _ => stuck
  | _ + 1, _, [] => pure []
  | n + 1, env, (k, v) :: ps => do
    let k ← expr maxFrames n env k
    let v ← expr maxFrames n env v
    let items ← pairItems maxFrames n env ps
    return k :: v :: items
termination_by structural n => n

/-- Does statements one after the other and gives the value of the last one. -/
def stmts (maxFrames : Nat) :
    (limit : Nat) → (env : Nat) → (last : Value) → List Stmt → Unbounded Value
  | 0, _, _, _ => stuck
  | _ + 1, _, last, [] => pure last
  | n + 1, env, _, s :: ss => do
    let v ← stmt maxFrames n env s
    stmts maxFrames n env v ss
termination_by structural n => n

/-- Calls a function.  The counter goes down again however the call ends. -/
def call (maxFrames : Nat) : (limit : Nat) → (ref : Nat) → (args : List Value) → Unbounded Value
  | 0, _, _ => stuck
  | n + 1, ref, args => fun (depth, s) =>
    match s.functions[ref]? with
    | none => some (.error (.fault (.notCallable .function)), depth, s)
    | some f =>
      if args.length ≠ f.params.length then
        some (.error (.fault (.wrongArgumentCount (wordCount f.params.length).toNat args.length)),
          depth, s)
      else if depth + 1 ≥ maxFrames then
        some (.error (.fault (.frameOverflow maxFrames)), depth, s)
      else do
        let (env, s) := Evaluator.enter s ref f args
        let (r, depth, s) ← stmts maxFrames n env .nil f.body (depth + 1, s)
        return (settle r, depth - 1, s)
termination_by structural n => n

end

/-- Does the statements of a program and gives the value of the last expression among them. -/
def top (maxFrames : Nat) : (limit : Nat) → (env : Nat) → (last : Value) → Program → Unbounded Value
  | 0, _, _, _ => stuck
  | _ + 1, _, last, [] => pure last
  | n + 1, env, last, s :: ss => do
    let v ← stmt maxFrames n env s
    top maxFrames n env (match s with | .expr _ => v | _ => last) ss

/-! ## One step after the other -/

/-- From some limit on, the outcome is this. -/
def Ends {α : Type} (X : Nat → Unbounded α) (st : Nat × Store) (r : Except Exit α × Nat × Store) :
    Prop :=
  ∃ n, ∀ m ≥ n, X m st = some r

section

variable {α β : Type} {X Y : Nat → Unbounded α} {F : α → Nat → Unbounded β} {st st' : Nat × Store}

/-- After a result the next step goes on. -/
lemma bind_ok {X : Unbounded α} {F : α → Unbounded β} {a : α} (h : X st = some (.ok a, st')) :
    (X >>= F) st = F a st' := by
  change (X st).bind (fun p => ExceptT.bindCont F p.1 p.2) = _
  rw [h]
  rfl

/-- After an exit nothing goes on. -/
lemma bind_error {X : Unbounded α} {F : α → Unbounded β} {e : Exit}
    (h : X st = some (.error e, st')) :
    (X >>= F) st = some (.error e, st') := by
  change (X st).bind (fun p => ExceptT.bindCont F p.1 p.2) = _
  rw [h]
  rfl

namespace Ends

variable {r r' : Except Exit α × Nat × Store} {q : Except Exit β × Nat × Store}

/-- There is one outcome only. -/
lemma unique (h : Ends X st r) (h' : Ends X st r') : r = r' := by
  obtain ⟨n, hn⟩ := h
  obtain ⟨n', hn'⟩ := h'
  exact Option.some.inj ((hn _ (Nat.le_max_left n n')).symm.trans (hn' _ (Nat.le_max_right n n')))

/-- What needs no limit ends. -/
lemma const {X : Unbounded α} (h : X st = some r) : Ends (fun _ => X) st r :=
  ⟨0, fun _ _ => h⟩

/-- One more is needed for what is one deeper in the recursion. -/
lemma of_succ (n : Nat) (h : ∀ m ≥ n, X (m + 1) st = some r) : Ends X st r := by
  refine ⟨n + 1, fun m hm => ?_⟩
  obtain ⟨m, rfl⟩ := Nat.exists_eq_add_of_le' (Nat.le_of_add_left_le hm)
  exact h m (Nat.le_of_succ_le_succ hm)

/-- Each level of the recursion takes one unit of the limit. -/
lemma succ (h : Ends X st r) (hY : ∀ n, Y (n + 1) = X n) : Ends Y st r := by
  obtain ⟨n, hn⟩ := h
  exact .of_succ n fun m hm => (congrFun (hY m) st).trans (hn m hm)

/-- One step after the other ends when both have. -/
lemma bind_ok {a : α} (h : Ends X st (.ok a, st')) (h' : Ends (F a) st' q) :
    Ends (fun n => X n >>= fun a => F a n) st q := by
  obtain ⟨n, hn⟩ := h
  obtain ⟨n', hn'⟩ := h'
  refine ⟨max n n', fun m hm => ?_⟩
  exact (Unbounded.bind_ok (hn m (Nat.le_trans (Nat.le_max_left n n') hm))).trans
    (hn' m (Nat.le_trans (Nat.le_max_right n n') hm))

/-- Or when the first one exits. -/
lemma bind_error {e : Exit} (h : Ends X st (.error e, st')) :
    Ends (fun n => X n >>= fun a => F a n) st (.error e, st') := by
  obtain ⟨n, hn⟩ := h
  exact ⟨n, fun m hm => Unbounded.bind_error (hn m hm)⟩

end Ends

end

/-- In a grounded store with the environment the step ends: it does what the other one does, leaves
the counter as it was, and the store is grounded afterwards. -/
def Mirrors {α : Type} (depth env : Nat) (X : Nat → Unbounded α) (x : Eval α) : Prop :=
  ∀ σ : Store, σ.Hosts env → Ends X (depth, σ) (outcome x depth σ) ∧ σ.Grows (x.after σ)

namespace Mirrors

variable {α β : Type} {depth env : Nat} {X Y : Nat → Unbounded α} {x : Eval α}

/-- Each level of the recursion takes one unit of the limit. -/
lemma succ (h : Mirrors depth env X x) (hY : ∀ n, Y (n + 1) = X n) : Mirrors depth env Y x :=
  fun σ hσ => ⟨(h σ hσ).1.succ hY, (h σ hσ).2⟩

/-- A step that makes no call leaves the counter as it is. -/
lemma lift (h : ∀ σ : Store, σ.Hosts env → σ.Grows (x.after σ)) :
    Mirrors depth env (fun _ => Unbounded.lift x) x :=
  fun σ hσ => ⟨.const rfl, h σ hσ⟩

lemma of_beside (h : x.Beside) : Mirrors depth env (fun _ => Unbounded.lift x) x :=
  .lift fun σ hσ => hσ.grounded.beside (h σ)

lemma pure (a : α) : Mirrors depth env (fun _ => Pure.pure a) (Pure.pure a) :=
  fun _ hσ => ⟨.const rfl, hσ.grounded.grows⟩

lemma throw (e : Exit) :
    Mirrors depth env (fun _ => (MonadExcept.throw e : Unbounded α)) (MonadExcept.throw e) :=
  fun _ hσ => ⟨.const rfl, hσ.grounded.grows⟩

/-- One step after the other; both see the counter that there was. -/
lemma bind {F : α → Nat → Unbounded β} {f : α → Eval β} (hx : Mirrors depth env X x)
    (hf : ∀ a, Mirrors depth env (F a) (f a)) :
    Mirrors depth env (fun n => X n >>= fun a => F a n) (x >>= f) := by
  intro σ hσ
  obtain ⟨hends, hgrows⟩ := hx σ hσ
  rw [outcome] at hends ⊢
  rw [Eval.after] at hgrows ⊢
  rw [Eval.run_bind]
  cases hr : x σ with
  | ok a σ' =>
      simp only [hr] at hends hgrows
      obtain ⟨hends', hgrows'⟩ := hf a σ' (hσ.grows hgrows)
      exact ⟨hends.bind_ok hends', hgrows.trans hgrows'⟩
  | error e σ' =>
      simp only [hr] at hends hgrows
      exact ⟨hends.bind_error, hgrows⟩

/-- A name is found after as many environments as there are at most. -/
lemma lookup (env : Nat) (name : String) :
    Mirrors depth env (fun n => Unbounded.lookup n env name) (Eval.lookup env name) := by
  intro σ hσ
  refine ⟨⟨env + 1, fun n hn => ?_⟩, hσ.grounded.beside (Eval.Beside.lookup env name σ)⟩
  dsimp only
  rw [Unbounded.lookup, outcome, Eval.lookup]
  simp only [hσ.grounded.search_eq name hn]
  cases σ.lookup env name with
  | some v => rfl
  | none =>
      cases Builtin.ofName? name with
      | some b => rfl
      | none => rfl

end Mirrors

/-! ## Inside one call -/

section

variable {maxFrames depth env : Nat} {calls : Nat → List Value → Eval Value}

/-- Expressions from left to right. -/
lemma mirrors_exprs {es : List Expr}
    (h : ∀ e ∈ es, Mirrors depth env (fun n => expr maxFrames n env e) (e.eval calls env)) :
    Mirrors depth env (fun n => exprs maxFrames n env es) (Expr.evalAll calls env es) := by
  induction es with
  | nil => exact .succ (.pure []) fun n => rfl
  | cons e es ih =>
      obtain ⟨he, hes⟩ := List.forall_mem_cons.mp h
      exact .succ (he.bind fun v => (ih hes).bind fun vs => .pure _) fun n => rfl

/-- Pairs in the order in which they are evaluated. -/
lemma mirrors_pairItems {ps : List (Expr × Expr)}
    (h : ∀ p ∈ ps, Mirrors depth env (fun n => expr maxFrames n env p.1) (p.1.eval calls env) ∧
      Mirrors depth env (fun n => expr maxFrames n env p.2) (p.2.eval calls env)) :
    Mirrors depth env (fun n => pairItems maxFrames n env ps)
      (Eval.sequence (Expr.evalPairs calls env ps)) := by
  induction ps with
  | nil => exact .succ (.pure []) fun n => rfl
  | cons p ps ih =>
      obtain ⟨⟨hk, hv⟩, hps⟩ := List.forall_mem_cons.mp h
      rw [Expr.sequence_evalPairs]
      exact .succ (hk.bind fun k => hv.bind fun v => (ih hps).bind fun vs => .pure _) fun n => rfl

/-- Statements one after the other. -/
lemma mirrors_stmts {ss : List Stmt}
    (h : ∀ s ∈ ss, Mirrors depth env (fun n => stmt maxFrames n env s) (s.eval calls env))
    (last : Value) :
    Mirrors depth env (fun n => stmts maxFrames n env last ss)
      (Stmt.evalAll calls env last ss) := by
  induction ss generalizing last with
  | nil => exact .succ (.pure last) fun n => rfl
  | cons s ss ih =>
      obtain ⟨hs, hss⟩ := List.forall_mem_cons.mp h
      exact .succ (hs.bind fun v => ih hss v) fun n => rfl

/-- The expression is mirrored and, if it is an index expression, so are its two parts: an
assignment to one evaluates its parts without it. -/
def ExprMirrors (maxFrames depth env : Nat) (calls : Nat → List Value → Eval Value) (e : Expr) :
    Prop :=
  Mirrors depth env (fun n => expr maxFrames n env e) (e.eval calls env) ∧
    ∀ left index, e = .index left index →
    Mirrors depth env (fun n => expr maxFrames n env left) (left.eval calls env) ∧
      Mirrors depth env (fun n => expr maxFrames n env index) (index.eval calls env)

/-- Binding a name makes no call. -/
lemma mirrors_bind (name : String) (v : Value) :
    Mirrors depth env (fun _ => lift (Eval.bind env name v) >>= fun _ => pure Value.nil)
      (Eval.bind env name v >>= fun _ => pure Value.nil) :=
  (Mirrors.lift (x := Eval.bind env name v) fun _ hσ => hσ.grounded.bind env name v).bind fun _ =>
    .pure _

/-- Where calls are mirrored, so is all that makes them. -/
lemma closed_mirrors
    (hcalls : ∀ ref args, Mirrors depth env (fun n => call maxFrames n ref args) (calls ref args)) :
    Tree.Closed (ExprMirrors maxFrames depth env calls)
      (fun s => Mirrors depth env (fun n => stmt maxFrames n env s) (s.eval calls env)) where
  ident n := ⟨.succ (.lookup env n) fun n => rfl, by simp⟩
  integer n := ⟨.succ (.pure _) fun n => rfl, by simp⟩
  float x := ⟨.succ (.pure _) fun n => rfl, by simp⟩
  string s := ⟨.succ (.pure _) fun n => rfl, by simp⟩
  boolean b := ⟨.succ (.pure _) fun n => rfl, by simp⟩
  nil := ⟨.succ (.pure _) fun n => rfl, by simp⟩
  array items ih := by
    refine ⟨.succ ((mirrors_exprs fun e he => (ih e he).1).bind fun vs => ?_) fun n => rfl, by simp⟩
    exact .of_beside (.alloc fun s => ⟨rfl, rfl, rfl⟩)
  hash pairs ih := by
    refine ⟨?_, by simp⟩
    rw [Expr.eval, Expr.evalPairs_sorted]
    refine .succ ((mirrors_pairItems fun p hp => ?_).bind fun vs => .of_beside (.buildHash vs))
      fun n => rfl
    obtain ⟨hk, hv⟩ := ih p (mem_sortedPairs.mp hp)
    exact ⟨hk.1, hv.1⟩
  function name params body _ :=
    ⟨.succ (.lift fun σ hσ => hσ.newFunction name params body) fun n => rfl, by simp⟩
  unary op right ih := by
    refine ⟨.succ (ih.1.bind fun v => ?_) fun n => rfl, by simp⟩
    cases Operator.unary? op with
    | some code => exact .of_beside (.ofExcept _)
    | none => exact .of_beside (.throw _)
  binary op left right ih ih' := by
    refine ⟨?_, by simp⟩
    rw [Expr.eval]
    rcases hop : Operator.binary? op with _ | ⟨code, _ | _⟩
    · exact .succ (ih.1.bind fun l => ih'.1.bind fun r => .of_beside (.throw _)) fun n =>
        by rw [expr, hop]
    · exact .succ (ih.1.bind fun l => ih'.1.bind fun r => .of_beside (.ofExcept _)) fun n =>
        by rw [expr, hop]
    · exact .succ (ih'.1.bind fun r => ih.1.bind fun l => .of_beside (.ofExcept _)) fun n =>
        by rw [expr, hop]
  index left index ih ih' := by
    refine ⟨.succ (ih.1.bind fun l => ih'.1.bind fun i => .of_beside (.getIndex l i)) fun n => rfl,
      fun l i heq => ?_⟩
    cases heq
    exact ⟨ih.1, ih'.1⟩
  cond condition yes no ih ihyes ihno := by
    refine ⟨?_, by simp⟩
    rw [Expr.eval_cond]
    refine .succ (ih.1.bind fun v => ?_) fun n => rfl
    split_ifs
    · exact mirrors_stmts ihyes _
    · exact mirrors_stmts ihno _
  call callee args ih ihargs := by
    have hargs := mirrors_exprs fun e he => (ihargs e he).1
    refine ⟨.succ (ih.1.bind fun f => hargs.bind fun vs => ?_) fun n => rfl, by simp⟩
    cases f with
    | function ref => exact hcalls ref vs
    | builtin b => exact .of_beside (.alloc fun s => b.beside_call s vs)
    | _ => exact .of_beside (.throw _)
  define name value ih := .succ (ih.1.bind fun v => mirrors_bind name v) fun n => rfl
  assign target value ih ih' := by
    cases target with
    | ident name => exact .succ (ih'.1.bind fun v => mirrors_bind name v) fun n => rfl
    | index left index =>
        obtain ⟨hl, hi⟩ := ih.2 left index rfl
        exact .succ (hl.bind fun l => hi.bind fun i => ih'.1.bind fun v =>
          (Mirrors.of_beside (.setIndex l i v)).bind fun _ => .pure _) fun n => rfl
    | _ => exact .succ (.of_beside (.throw _)) fun n => rfl
  ret value ih := .succ (ih.1.bind fun v => .throw _) fun n => rfl
  expr e ih := .succ ih.1 fun n => rfl
  block body ih := .succ (mirrors_stmts ih _) fun n => rfl

end

/-! ## Calls -/

open Evaluator (callFunction)

section

variable {maxFrames depth ref : Nat} {args : List Value} {σ : Store} {f : FunctionObject}

/-- What is no function is not called. -/
lemma ends_call_of_none (hf : σ.functions[ref]? = none) :
    Ends (fun n => call maxFrames n ref args) (depth, σ)
      (.error (.fault (.notCallable .function)), depth, σ) := by
  refine .of_succ 0 fun n _ => ?_
  rw [call]
  simp only [hf]

/-- With a wrong number of arguments nothing is called. -/
lemma ends_call_of_ne (hf : σ.functions[ref]? = some f) (hlen : args.length ≠ f.params.length) :
    Ends (fun n => call maxFrames n ref args) (depth, σ)
      (.error (.fault (.wrongArgumentCount (wordCount f.params.length).toNat args.length)),
        depth, σ) := by
  refine .of_succ 0 fun n _ => ?_
  rw [call]
  simp only [hf]
  rw [if_pos hlen]

/-- At the limit of nested calls nothing is called. -/
lemma ends_call_of_le (hf : σ.functions[ref]? = some f) (hlen : args.length = f.params.length)
    (hdepth : maxFrames ≤ depth + 1) :
    Ends (fun n => call maxFrames n ref args) (depth, σ)
      (.error (.fault (.frameOverflow maxFrames)), depth, σ) := by
  refine .of_succ 0 fun n _ => ?_
  rw [call]
  simp only [hf]
  rw [if_neg (not_not.mpr hlen), if_pos hdepth]

/-- A call ends when the body of the function does. -/
lemma ends_call (hf : σ.functions[ref]? = some f) (hlen : args.length = f.params.length)
    (hdepth : depth + 1 < maxFrames) {r : Except Exit Value} {depth' : Nat} {σ' : Store}
    (hbody : Ends (fun n => stmts maxFrames n (Evaluator.enter σ ref f args).1 .nil f.body)
      (depth + 1, (Evaluator.enter σ ref f args).2) (r, depth', σ')) :
    Ends (fun n => call maxFrames n ref args) (depth, σ) (settle r, depth' - 1, σ') := by
  obtain ⟨n, hn⟩ := hbody
  dsimp only at hn
  refine .of_succ n fun m hm => ?_
  rw [call]
  simp only [hf]
  rw [if_neg (not_not.mpr hlen), if_neg (Nat.not_le_of_lt hdepth), hn m hm]
  rfl

end

/-- A call is mirrored if the statements of functions are, one call deeper. -/
lemma mirrors_call_of {maxFrames depth : Nat}
    (hbody : depth + 1 < maxFrames →
      ∀ env ss, Mirrors (depth + 1) env (fun n => stmts maxFrames n env .nil ss)
      (Stmt.evalAll (callFunction maxFrames (maxFrames - 1 - (depth + 1))) env .nil ss))
    (env ref : Nat) (args : List Value) :
    Mirrors depth env (fun n => call maxFrames n ref args)
      (callFunction maxFrames (maxFrames - 1 - depth) ref args) := by
  intro σ hσ
  rw [outcome, Eval.after]
  unfold callFunction
  cases hf : σ.functions[ref]? with
  | none => exact ⟨ends_call_of_none hf, hσ.grounded.grows⟩
  | some f =>
      dsimp only
      by_cases hlen : args.length = f.params.length
      · rw [if_neg (not_not.mpr hlen)]
        cases hleft : maxFrames - 1 - depth with
        | zero => exact ⟨ends_call_of_le hf hlen (by omega), hσ.grounded.grows⟩
        | succ left =>
            have hdepth : depth + 1 < maxFrames := by omega
            obtain ⟨hhosts, hgrows⟩ := hσ.grounded.enter hf args
            obtain ⟨hends, hgrows'⟩ := hbody hdepth _ f.body _ hhosts
            rw [show maxFrames - 1 - (depth + 1) = left by omega] at hends hgrows'
            rw [outcome] at hends
            rw [Eval.after] at hgrows'
            dsimp only
            cases hr : Stmt.evalAll (callFunction maxFrames left)
              (Evaluator.enter σ ref f args).1 .nil f.body
                (Evaluator.enter σ ref f args).2 with
            | ok v σ' =>
                rw [hr] at hends hgrows'
                exact ⟨ends_call hf hlen hdepth hends, hgrows.trans hgrows'⟩
            | error e σ' =>
                rw [hr] at hends hgrows'
                cases e with
                | returned v => exact ⟨ends_call hf hlen hdepth hends, hgrows.trans hgrows'⟩
                | fault g => exact ⟨ends_call hf hlen hdepth hends, hgrows.trans hgrows'⟩
      · rw [if_pos hlen]
        exact ⟨ends_call_of_ne hf hlen, hσ.grounded.grows⟩

/-- **A call ends**, and the counter is as it was before.  The induction is on the number of calls
that may still be nested. -/
theorem mirrors_call (maxFrames depth env ref : Nat) (args : List Value) :
    Mirrors depth env (fun n => call maxFrames n ref args)
      (callFunction maxFrames (maxFrames - 1 - depth) ref args) := by
  -- by the calls that may still be nested; inside one of them, by the tree
  induction hleft : maxFrames - 1 - depth using Nat.strongRecOn generalizing depth env ref args with
  | ind left ih =>
      rw [← hleft]
      refine mirrors_call_of (fun hdepth env ss => ?_) env ref args
      have hcalls (ref : Nat) (args : List Value) :=
        ih (maxFrames - 1 - (depth + 1)) (by omega) (depth + 1) env ref args rfl
      exact mirrors_stmts (fun s _ => (closed_mirrors hcalls).forall_stmt s) .nil

section

variable (maxFrames depth env : Nat)

/-- **The evaluation of an expression ends.** -/
theorem mirrors_expr (e : Expr) : Mirrors depth env (fun n => expr maxFrames n env e)
    (e.eval (callFunction maxFrames (maxFrames - 1 - depth)) env) :=
  ((closed_mirrors (mirrors_call maxFrames depth env)).forall_expr e).1

/-- So does that of a statement. -/
theorem mirrors_stmt (s : Stmt) : Mirrors depth env (fun n => stmt maxFrames n env s)
    (s.eval (callFunction maxFrames (maxFrames - 1 - depth)) env) :=
  (closed_mirrors (mirrors_call maxFrames depth env)).forall_stmt s

/-- And that of a program. -/
theorem mirrors_top (last : Value) (p : Program) :
    Mirrors depth env (fun n => top maxFrames n env last p)
    (Evaluator.evalTop (callFunction maxFrames (maxFrames - 1 - depth)) env last p) := by
  induction p generalizing last with
  | nil => exact .succ (.pure last) fun n => rfl
  | cons s ss ih =>
      exact .succ ((mirrors_stmt maxFrames depth env s).bind fun v => ih _) fun n => rfl

end

end Unbounded

end Marmoset
