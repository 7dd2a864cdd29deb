import Marmoset.Proofs.UnboundedEvaluation

/-!
# What the evaluator turns to

While the evaluator works on a part of a program it turns to other parts: to smaller ones of the
same tree, and at a call to the body of a function, which it fetches from the store and which may be
larger than the call, or the very function that the call stands in.  `Activation.Calls` says to
which parts, in which environment, how deep and with what in the store.

* **`Activation.stops_of_calls`** — this is all: where it ends, and the search for names, the
  evaluation of the part ends as well.
-/

namespace Marmoset

namespace Part

/-- The parts that are evaluated one after the other whatever their values are. -/
def steps : Part → List Part
  | expr (.array items) => [exprs items]
  | expr (.hash ps) => [pairs (sortedPairs ps)]
  | expr (.unary _ right) => [expr right]
  | expr (.binary op left right) =>
    match Operator.binary? op with
    | some (_, true) => [expr right, expr left]
    | _ => [expr left, expr right]
  | expr (.index left index) => [expr left, expr index]
  | expr (.cond condition _ _) => [expr condition]
  | expr (.call callee args) => [expr callee, exprs args]
  | expr _ => []
  | exprs (e :: es) => [expr e, exprs es]
  | exprs [] => []
  | pairs ((k, v) :: ps) => [expr k, expr v, pairs ps]
  | pairs [] => []
  | stmt (.define _ value) => [expr value]
  | stmt (.assign (.ident _) value) => [expr value]
  | stmt (.assign (.index left index) value) => [expr left, expr index, expr value]
  | stmt (.assign _ _) => []
  | stmt (.ret value) => [expr value]
  | stmt (.expr e) => [expr e]
  | stmt (.block body) => [stmts body]
  | stmts (s :: ss) | branch (s :: ss) => [stmt s, stmts ss]
  | stmts [] | branch [] => []

/-- What the evaluation of a part gives. -/
def Result : Part → Type
  | expr _ | stmt _ | stmts _ | branch _ => Value
  | exprs _ | pairs _ => List Value

end Part

namespace Unbounded

/-- Evaluates a part. -/
def part (maxFrames env : Nat) : (p : Part) → (limit : Nat) → Unbounded p.Result
  | .expr e, n => expr maxFrames n env e
  | .exprs es, n => exprs maxFrames n env es
  | .pairs ps, n => pairItems maxFrames n env ps
  | .stmt s, n => stmt maxFrames n env s
  | .stmts ss, n | .branch ss, n => stmts maxFrames n env .nil ss

/-- The evaluation ends. -/
def Stops {α : Type} (X : Nat → Unbounded α) (st : Nat × Store) : Prop :=
  ∃ r, Ends X st r

/-- When parts are evaluated one after the other, this one is begun like this. -/
inductive Comes (maxFrames env : Nat) : List Part → Nat × Store → Part → Nat × Store → Prop where
  | here {p : Part} {ps : List Part} {st : Nat × Store} : Comes maxFrames env (p :: ps) st p st
  | later {p q : Part} {ps : List Part} {a : p.Result} {st st' st'' : Nat × Store} :
      Ends (part maxFrames env p) st (.ok a, st') → Comes maxFrames env ps st' q st'' →
      Comes maxFrames env (p :: ps) st q st''

end Unbounded

/-! ## The recursion -/

/-- A part that is to be evaluated in an environment, with calls nested so deep and with this in the
store. -/
structure Activation where
  part : Part
  env : Nat
  depth : Nat
  store : Store

namespace Activation

open Unbounded (Ends Comes)

/-- What the evaluator turns to while it evaluates a part, and before it is done with it. -/
inductive Calls (maxFrames : Nat) : Activation → Activation → Prop where
  /-- One of the steps, after those before it have come to a value. -/
  | step {p q : Part} {env depth depth' : Nat} {σ σ' : Store} :
      Comes maxFrames env p.steps (depth, σ) q (depth', σ') →
      Calls maxFrames ⟨p, env, depth, σ⟩ ⟨q, env, depth', σ'⟩
  /-- The branch that is chosen by the value of the condition. -/
  | branch {condition : Expr} {yes : List Stmt} {no : Option (List Stmt)} {v : Value}
      {env depth depth' : Nat}
      {σ σ' : Store} :
      Ends (fun n => Unbounded.expr maxFrames n env condition) (depth, σ) (.ok v, depth', σ') →
      Calls maxFrames ⟨.expr (.cond condition yes no), env, depth, σ⟩
        ⟨.stmts (if v.truthy then yes else no.getD []), env, depth', σ'⟩
  /-- The body of the function that is called, in a new environment and one call deeper. -/
  | body {callee : Expr} {args : List Expr} {ref : Nat} {f : FunctionObject} {vs : List Value}
      {env depth depth' depth'' : Nat} {σ σ' σ'' : Store} :
      Ends (fun n => Unbounded.expr maxFrames n env callee) (depth, σ)
        (.ok (.function ref), depth', σ') →
      Ends (fun n => Unbounded.exprs maxFrames n env args) (depth', σ') (.ok vs, depth'', σ'') →
      σ''.functions[ref]? = some f → vs.length = f.params.length → depth'' + 1 < maxFrames →
      Calls maxFrames ⟨.expr (.call callee args), env, depth, σ⟩
        ⟨.stmts f.body, (Evaluator.enter σ'' ref f vs).1, depth'' + 1,
          (Evaluator.enter σ'' ref f vs).2⟩

/-- The evaluation of the part ends. -/
def Stops (maxFrames : Nat) (a : Activation) : Prop :=
  Unbounded.Stops (Unbounded.part maxFrames a.env a.part) (a.depth, a.store)

end Activation

/-! ## Nothing else is turned to -/

namespace Unbounded

section

variable {α β : Type} {X Y : Nat → Unbounded α} {F : α → Nat → Unbounded β} {st : Nat × Store}

lemma stops_pure (a : α) (st : Nat × Store) : Stops (fun _ => (pure a : Unbounded α)) st :=
  ⟨_, .const rfl⟩

lemma stops_lift (x : Eval α) (st : Nat × Store) : Stops (fun _ => lift x) st :=
  ⟨outcome x st.1 st.2, .const rfl⟩

lemma Stops.succ (h : Stops X st) (hY : ∀ n, Y (n + 1) = X n) : Stops Y st := by
  obtain ⟨r, hr⟩ := h
  exact ⟨r, hr.succ hY⟩

lemma Stops.bind (hX : Stops X st) (hF : ∀ a st', Ends X st (.ok a, st') → Stops (F a) st') :
    Stops (fun n => X n >>= fun a => F a n) st := by
  obtain ⟨⟨r, st'⟩, hr⟩ := hX
  cases r with
  | ok a =>
      obtain ⟨q, hq⟩ := hF a st' hr
      exact ⟨q, hr.bind_ok hq⟩
  | error e => exact ⟨_, hr.bind_error⟩

end

variable {maxFrames env depth : Nat} {σ : Store}

/-- Each part ends, when those before it have come to a value. -/
def StopInTurn (maxFrames env : Nat) : List Part → Nat × Store → Prop
  | [], _ => True
  | p :: ps, st => Stops (part maxFrames env p) st ∧
      ∀ a st', Ends (part maxFrames env p) st (.ok a, st') → StopInTurn maxFrames env ps st'

lemma stopInTurn_of_comes {ps : List Part} {st : Nat × Store}
    (h : ∀ q st', Comes maxFrames env ps st q st' → Stops (part maxFrames env q) st') :
    StopInTurn maxFrames env ps st := by
  induction ps generalizing st with
  | nil => trivial
  | cons p ps ih =>
      exact ⟨h p st .here, fun a st' ha => ih fun q st'' hq => h q st'' (.later ha hq)⟩

lemma stopInTurn_steps {p : Part}
    (h : ∀ b, Activation.Calls maxFrames ⟨p, env, depth, σ⟩ b → b.Stops maxFrames) :
    StopInTurn maxFrames env p.steps (depth, σ) :=
  stopInTurn_of_comes fun q st hq => h ⟨q, env, st.1, st.2⟩ (.step hq)

/-- A call ends if the body of the function does. -/
lemma stops_call {ref : Nat} {vs : List Value}
    (h : ∀ f, σ.functions[ref]? = some f → vs.length = f.params.length → depth + 1 < maxFrames →
      Stops (fun n => stmts maxFrames n (Evaluator.enter σ ref f vs).1 .nil f.body)
        (depth + 1, (Evaluator.enter σ ref f vs).2)) :
    Stops (fun n => call maxFrames n ref vs) (depth, σ) := by
  cases hf : σ.functions[ref]? with
  | none => exact ⟨_, ends_call_of_none hf⟩
  | some f =>
      by_cases hlen : vs.length = f.params.length
      · rcases Nat.lt_or_ge (depth + 1) maxFrames with hdepth | hdepth
        · obtain ⟨⟨r, depth', σ'⟩, hr⟩ := h f hf hlen hdepth
          exact ⟨_, ends_call hf hlen hdepth hr⟩
        · exact ⟨_, ends_call_of_le hf hlen hdepth⟩
      · exact ⟨_, ends_call_of_ne hf hlen⟩

lemma stops_lookup {name : String} {found : Option Value} (h : σ.Finds env name found) :
    Stops (fun n => lookup n env name) (depth, σ) := by
  obtain ⟨n, hn⟩ := h
  cases found with
  | some v =>
      refine ⟨(.ok v, depth, σ), n, fun m hm => ?_⟩
      simp [lookup, hn m hm]
  | none =>
      cases hb : Builtin.ofName? name with
      | some b =>
          refine ⟨(.ok (.builtin b), depth, σ), n, fun m hm => ?_⟩
          simp [lookup, hn m hm, hb]
      | none =>
          refine ⟨(.error (.fault (.undefinedVariable name)), depth, σ), n, fun m hm => ?_⟩
          simp [lookup, hn m hm, hb]

/-- An expression ends if its steps do, and what is chosen by their values. -/
lemma stops_expr {e : Expr} (hsearch : ∀ name, ∃ found, σ.Finds env name found)
    (h : ∀ b, Activation.Calls maxFrames ⟨.expr e, env, depth, σ⟩ b → b.Stops maxFrames) :
    Stops (fun n => expr maxFrames n env e) (depth, σ) := by
  have hsteps := stopInTurn_steps h
  cases e with
  | ident name =>
      obtain ⟨found, hfound⟩ := hsearch name
      exact (stops_lookup hfound).succ fun n => rfl
  | array items => exact (hsteps.1.bind fun vs st _ => stops_lift _ st).succ fun n => rfl
  | hash pairs => exact (hsteps.1.bind fun vs st _ => stops_lift _ st).succ fun n => rfl
  | function name params body => exact (stops_lift _ _).succ fun n => rfl
  | unary op right =>
      refine (hsteps.1.bind fun v st _ => ?_).succ fun n => rfl
      cases Operator.unary? op with
      | some code => exact stops_lift _ st
      | none => exact stops_lift _ st
  | binary op left right =>
      rw [Part.steps] at hsteps
      rcases hop : Operator.binary? op with _ | ⟨code, _ | _⟩ <;> rw [hop] at hsteps
      · exact (hsteps.1.bind fun l st hl => (hsteps.2 l st hl).1.bind fun r st _ =>
          stops_lift _ st).succ
            fun n => by rw [expr, hop]; rfl
      · exact (hsteps.1.bind fun l st hl => (hsteps.2 l st hl).1.bind fun r st _ =>
          stops_lift _ st).succ
            fun n => by rw [expr, hop]; rfl
      · exact (hsteps.1.bind fun r st hr => (hsteps.2 r st hr).1.bind fun l st _ =>
          stops_lift _ st).succ
            fun n => by rw [expr, hop]; rfl
  | index left index =>
      exact (hsteps.1.bind fun l st hl => (hsteps.2 l st hl).1.bind fun i st _ =>
        stops_lift _ st).succ fun n => rfl
  | cond condition yes no =>
      refine (hsteps.1.bind fun v st hv => ?_).succ fun n => rfl
      exact h ⟨.stmts _, env, st.1, st.2⟩ (.branch hv)
  | call callee args =>
      refine (hsteps.1.bind fun f st hf => (hsteps.2 f st hf).1.bind fun vs st' hvs => ?_).succ
        fun n => rfl
      cases f with
      | function ref =>
          exact stops_call fun f hget hlen hdepth => h _ (.body hf hvs hget hlen hdepth)
      | _ => exact stops_lift _ st'
  | _ => exact (stops_pure _ _).succ fun n => rfl

lemma stops_stmt {s : Stmt}
    (h : ∀ b, Activation.Calls maxFrames ⟨.stmt s, env, depth, σ⟩ b → b.Stops maxFrames) :
    Stops (fun n => stmt maxFrames n env s) (depth, σ) := by
  have hsteps := stopInTurn_steps h
  have hbind {α : Type} (x : Eval α) (st : Nat × Store) :
      Stops (fun _ => lift x >>= fun _ => pure Value.nil) st :=
    (stops_lift x st).bind fun _ st _ => stops_pure _ st
  cases s with
  | define name value => exact (hsteps.1.bind fun v st _ => hbind _ st).succ fun n => rfl
  | assign target value =>
      cases target with
      | ident name => exact (hsteps.1.bind fun v st _ => hbind _ st).succ fun n => rfl
      | index left index =>
          refine (hsteps.1.bind fun l st hl => ?_).succ fun n => rfl
          have hrest := hsteps.2 l st hl
          exact hrest.1.bind fun i st hi => (hrest.2 i st hi).1.bind fun v st _ => hbind _ st
      | _ => exact (stops_lift _ _).succ fun n => rfl
  | ret value => exact (hsteps.1.bind fun v st _ => ⟨_, .const rfl⟩).succ fun n => rfl
  | expr e => exact hsteps.1.succ fun n => rfl
  | block body => exact hsteps.1.succ fun n => rfl

/-- What statements are given as the value of those before them does not matter. -/
lemma stops_stmts_last {ss : List Stmt} {st : Nat × Store}
    (h : Stops (fun n => stmts maxFrames n env .nil ss) st) (last : Value) :
    Stops (fun n => stmts maxFrames n env last ss) st := by
  cases ss with
  | nil => exact (stops_pure last st).succ fun n => rfl
  | cons s ss =>
      have hsame (n : Nat) : stmts maxFrames n env last (s :: ss) =
          stmts maxFrames n env .nil (s :: ss) := by
        cases n with
        | zero => rfl
        | succ n => rfl
      simpa only [hsame] using h

lemma stops_stmts {ss : List Stmt} (h : StopInTurn maxFrames env (Part.stmts ss).steps (depth, σ)) :
    Stops (fun n => stmts maxFrames n env .nil ss) (depth, σ) := by
  cases ss with
  | nil => exact (stops_pure _ _).succ fun n => rfl
  | cons s ss =>
      exact (h.1.bind fun v st hv => stops_stmts_last (h.2 v st hv).1 v).succ fun n => rfl

lemma stops_exprs {es : List Expr} (h : StopInTurn maxFrames env (Part.exprs es).steps (depth, σ)) :
    Stops (fun n => exprs maxFrames n env es) (depth, σ) := by
  cases es with
  | nil => exact (stops_pure _ _).succ fun n => rfl
  | cons e es =>
      exact (h.1.bind fun v st hv => (h.2 v st hv).1.bind fun vs st _ => stops_pure _ st).succ
        fun n => rfl

lemma stops_pairItems {ps : List (Expr × Expr)}
    (h : StopInTurn maxFrames env (Part.pairs ps).steps (depth, σ)) :
    Stops (fun n => pairItems maxFrames n env ps) (depth, σ) := by
  cases ps with
  | nil => exact (stops_pure _ _).succ fun n => rfl
  | cons p ps =>
      refine (h.1.bind fun k st hk => ?_).succ fun n => rfl
      have hrest := h.2 k st hk
      exact hrest.1.bind fun v st hv => (hrest.2 v st hv).1.bind fun items st _ => stops_pure _ st

end Unbounded

/-- **Nothing else is turned to**: a part ends if the search for names does and all that it turns
to. -/
theorem Activation.stops_of_calls {maxFrames : Nat} (a : Activation)
    (hsearch : ∀ name, ∃ found, a.store.Finds a.env name found)
    (h : ∀ b, a.Calls maxFrames b → b.Stops maxFrames) : a.Stops maxFrames := by
  obtain ⟨p, env, depth, σ⟩ := a
  have hsteps := Unbounded.stopInTurn_steps h
  cases p with
  | expr e => exact Unbounded.stops_expr hsearch h
  | exprs es => exact Unbounded.stops_exprs hsteps
  | pairs ps => exact Unbounded.stops_pairItems hsteps
  | stmt s => exact Unbounded.stops_stmt h
  | stmts ss => exact Unbounded.stops_stmts hsteps
  | branch ss =>
      cases ss with
      | nil => exact Unbounded.stops_stmts hsteps
      | cons s ss => exact Unbounded.stops_stmts hsteps

end Marmoset
