import Marmoset.Proofs.CallFrames

/-!
# How a name stands

At a place of a program a name may be bound whenever the place is reached, or a binding of it may
stand before that place and need not have been done, or none stands before it (`Standing`).  This
can be told from the tree alone: `Stmt.survey` goes through it in the order of evaluation and lists
how the name stands wherever it is read.

A binding in one branch of a conditional stands before the other branch and before what follows, but
it is not certain to be done.  The value that a name is bound to comes before the binding is done.
A function is evaluated after it is made, and names never become unbound, so that inside it a name
stands at least as it does where the function is made.

* **`Evaluator.finds_run`** — a name that is certain to be bound wherever it is read is never found
  missing.
-/

namespace Marmoset

/-! ## Standings -/

/-- What is known of a name at a place of a program. -/
inductive Standing where
  /-- No binding of it stands before. -/
  | absent
  /-- A binding of it stands before and may not have been done. -/
  | doubtful
  /-- It is bound whenever the place is reached. -/
  | sure
deriving DecidableEq, Repr

namespace Standing

/-- While the value is evaluated that the name will be bound to. -/
def begun : Standing → Standing
  | absent => doubtful
  | s => s

/-- What is known if one of two things is known. -/
def meet (s s' : Standing) : Standing :=
  if s = s' then s else doubtful

/-- What is certain during an evaluation was certain before it. -/
lemma begun_eq_sure {s : Standing} (h : s.begun = sure) : s = sure := by
  cases s <;> first | rfl | cases h

/-- While its value is evaluated no name is known to be absent. -/
lemma begun_ne_absent (s : Standing) : s.begun ≠ absent := by
  cases s <;> decide

/-- What is known without doubt is known either way. -/
lemma of_meet {s s' t : Standing} (h : s.meet s' = t) (ht : t ≠ doubtful) : s = t ∧ s' = t := by
  rw [meet] at h
  split_ifs at h with heq
  · exact ⟨h, heq ▸ h⟩
  · exact absurd h.symm ht

/-- What is certain after two branches is certain after each. -/
lemma meet_eq_sure {s s' : Standing} (h : s.meet s' = sure) :
    s = sure ∧ s' = sure := of_meet h (by decide)

/-- What is absent after them is absent after each. -/
lemma meet_eq_absent {s s' : Standing} (h : s.meet s' = absent) :
    s = absent ∧ s' = absent := of_meet h (by decide)

end Standing

/-- How a name stands wherever a part of a program reads it, and how it stands behind that part,
from how it stands in front of it. -/
abbrev Survey := Standing → List Standing × Standing

namespace Survey

/-- Nothing is read or bound. -/
def idle : Survey := fun s => ([], s)

/-- The name is read, if it is this one. -/
def reading (here : Bool) : Survey := fun s => (if here then [s] else [], s)

/-- One part after the other. -/
def andThen (w w' : Survey) : Survey := fun s => ((w s).1 ++ (w' (w s).2).1, (w' (w s).2).2)

/-- Two branches, of which one is taken. -/
def branches (yes no : Survey) : Survey := fun s =>
  ((yes s).1 ++ (no (s.meet (yes s).2)).1, (yes s).2.meet (no (s.meet (yes s).2)).2)

/-- The name is bound, if it is this one, after its value is evaluated. -/
def binding (here : Bool) (value : Survey) : Survey := fun s =>
  if here then ((value s.begun).1, .sure) else value s

/-- The body of a function, which binds the name itself if it is this one. -/
def inside (here : Bool) (body : Survey) : Survey := fun s =>
  ((body (if here then .sure else s)).1, s)

/-- Nothing comes behind. -/
def last (w : Survey) : Survey := fun s => ((w s).1, .sure)

def all : List Survey → Survey
  | [] => idle
  | w :: ws => w.andThen (all ws)

@[simp] lemma andThen_idle (w : Survey) : w.andThen idle = w := by
  funext s
  simp [andThen, idle]

/-- The order of the parts is all that matters. -/
lemma andThen_assoc (w w' w'' : Survey) :
    (w.andThen w').andThen w'' = w.andThen (w'.andThen w'') := by
  funext s
  simp [andThen]

end Survey

mutual

/-- How a name stands in an expression. -/
def Expr.survey (n : String) : Expr → Survey
  | .ident m => .reading (m == n)
  | .integer _ | .float _ | .string _ | .boolean _ | .nil => .idle
  | .array items => Expr.surveyAll n items
  | .hash pairs => .all ((byText (Expr.surveyPairs n pairs)).map Prod.snd)
  | .function name params body =>
    .inside (name == some n || params.contains n) (Stmt.surveyAll n body)
  | .unary _ right => right.survey n
  | .binary op left right =>
    match Operator.binary? op with
    | some (_, true) => (right.survey n).andThen (left.survey n)
    | _ => (left.survey n).andThen (right.survey n)
  | .index left index => (left.survey n).andThen (index.survey n)
  | .cond condition yes none =>
    (condition.survey n).andThen (.branches (Stmt.surveyAll n yes) .idle)
  | .cond condition yes (some no) =>
    (condition.survey n).andThen (.branches (Stmt.surveyAll n yes) (Stmt.surveyAll n no))
  | .call callee args => (callee.survey n).andThen (Expr.surveyAll n args)
termination_by structural e => e

/-- How a name stands in a statement. -/
def Stmt.survey (n : String) : Stmt → Survey
  | .define m value => .binding (m == n) (value.survey n)
  | .assign (.ident m) value => .binding (m == n) (value.survey n)
  | .assign (.index left index) value =>
    (left.survey n).andThen ((index.survey n).andThen (value.survey n))
  | .assign _ _ => .idle
  | .ret value => .last (value.survey n)
  | .expr e => e.survey n
  | .block body => Stmt.surveyAll n body
termination_by structural s => s

def Expr.surveyAll (n : String) : List Expr → Survey
  | [] => .idle
  | e :: es => (e.survey n).andThen (Expr.surveyAll n es)
termination_by structural es => es

/-- The text of each key, and how the name stands in the key and the value. -/
def Expr.surveyPairs (n : String) : List (Expr × Expr) → List (String × Survey)
  | [] => []
  | (k, v) :: ps => (k.text, (k.survey n).andThen (v.survey n)) :: Expr.surveyPairs n ps
termination_by structural ps => ps

def Stmt.surveyAll (n : String) : List Stmt → Survey
  | [] => .idle
  | s :: ss => (s.survey n).andThen (Stmt.surveyAll n ss)
termination_by structural ss => ss

end

section

variable {n : String}

/-- The pairs of a hash are looked at in the order in which they are evaluated. -/
lemma Expr.survey_hash (pairs : List (Expr × Expr)) : (Expr.hash pairs).survey n =
    .all ((sortedPairs pairs).map fun p => (p.1.survey n).andThen (p.2.survey n)) := by
  have hpairs (ps : List (Expr × Expr)) :
      Expr.surveyPairs n ps = ps.map fun p =>
        (p.1.text, (p.1.survey n).andThen (p.2.survey n)) := by
    induction ps with
    | nil => rfl
    | cons p ps ih =>
        rw [Expr.surveyPairs, ih]
        rfl
  rw [Expr.survey, hpairs, byText_pairs]

/-- A missing branch is an empty one. -/
lemma Expr.survey_cond (condition : Expr) (yes : List Stmt) (no : Option (List Stmt)) :
    (Expr.cond condition yes no).survey n =
      (condition.survey n).andThen
        (.branches (Stmt.surveyAll n yes) (Stmt.surveyAll n (no.getD []))) := by
  cases no with
  | none => rfl
  | some no => rfl

end

/-! ## Names that are found -/

namespace Store

variable {σ σ' : Store} {n : String} {env e : Nat}

/-- The name is found from the environment on. -/
def Knows (σ : Store) (env : Nat) (n : String) : Prop :=
  (Builtin.ofName? n).isSome = true ∨ (σ.lookup env n).isSome = true

/-- Names stay bound. -/
lemma RunsIn.isSome_boundTo (h : σ.RunsIn env σ')
    (hn : (boundTo σ.environments e n).isSome = true) :
    (boundTo σ'.environments e n).isSome = true := by
  obtain ⟨v, hv⟩ := Option.isSome_iff_exists.mp hn
  obtain ⟨E, hE, hlookup⟩ := Option.bind_eq_some_iff.mp hv
  by_cases he : e = env
  · subst he
    obtain ⟨new, hnew⟩ := h.own E hE
    rw [boundTo, hnew]
    simp [List.lookup_append, hlookup]
  · rw [boundTo, h.others e (Array.getElem?_eq_some_iff.mp hE).1 he, hE]
    simp [hlookup]

/-- No evaluation moves an environment elsewhere. -/
lemma RunsIn.outerOf_eq (h : σ.RunsIn env σ') (he : e < σ.environments.size) :
    outerOf σ'.environments e = outerOf σ.environments e := by
  by_cases heq : e = env
  · subst heq
    obtain ⟨new, hnew⟩ := h.own _ (Array.getElem?_eq_getElem he)
    rw [outerOf, outerOf, hnew, Array.getElem?_eq_getElem he]
    rfl
  · rw [outerOf, outerOf, h.others e he heq]

/-- A name that is found stays found.  The induction is on the number of environments that are
looked at. -/
lemma RunsIn.isSome_lookupWithin (h : σ.RunsIn env σ') {fuel : Nat}
    (hn : (σ.lookupWithin n fuel e).isSome = true) :
    (σ'.lookupWithin n fuel e).isSome = true := by
  induction fuel generalizing e with
  | zero => cases hn
  | succ fuel ih =>
      rw [lookupWithin_succ, Option.isSome_or, Bool.or_eq_true] at hn ⊢
      refine hn.imp h.isSome_boundTo fun ho => ?_
      obtain ⟨v, hv⟩ := Option.isSome_iff_exists.mp ho
      obtain ⟨o, ho, hv⟩ := Option.bind_eq_some_iff.mp hv
      rw [h.outerOf_eq (lt_size_of_outerOf ho), ho, Option.bind_some]
      exact ih (by rw [hv]; rfl)

/-- What is found stays found. -/
lemma Knows.runsIn (hn : σ.Knows e n) (h : σ.RunsIn env σ') : σ'.Knows e n :=
  hn.imp_right h.isSome_lookupWithin

/-- A name is found where it is bound. -/
lemma knows_of_boundTo (hn : (boundTo σ.environments e n).isSome = true) : σ.Knows e n := by
  refine .inr ?_
  rw [lookup, lookupWithin_succ, Option.isSome_or, Bool.or_eq_true]
  exact .inl hn

/-- Looking further does not lose a name. -/
lemma isSome_lookupWithin_of_le {fuel fuel' : Nat} (hle : fuel ≤ fuel')
    (hn : (σ.lookupWithin n fuel e).isSome = true) : (σ.lookupWithin n fuel' e).isSome = true := by
  induction fuel generalizing e fuel' with
  | zero => cases hn
  | succ fuel ih =>
      obtain ⟨k, rfl⟩ := Nat.exists_eq_add_of_le' (Nat.le_of_add_left_le hle)
      rw [lookupWithin_succ, Option.isSome_or, Bool.or_eq_true] at hn ⊢
      refine hn.imp_right fun ho => ?_
      obtain ⟨v, hv⟩ := Option.isSome_iff_exists.mp ho
      obtain ⟨o, ho, hv⟩ := Option.bind_eq_some_iff.mp hv
      rw [ho, Option.bind_some]
      exact ih (by omega) (by rw [hv]; rfl)

/-- A name is found from inside the environment in which it is found. -/
lemma Knows.of_outer {o : Nat} (ho : outerOf σ.environments e = some o) (hlt : o < e)
    (hn : σ.Knows o n) :
    σ.Knows e n := by
  refine hn.imp_right fun hlookup => ?_
  rw [lookup, lookupWithin_succ, Option.isSome_or, Bool.or_eq_true, ho, Option.bind_some]
  exact .inr (isSome_lookupWithin_of_le hlt hlookup)

/-- A name is found once it is bound. -/
lemma knows_bind (h : env < σ.environments.size) (n : String) (v : Value) :
    (σ.bind env n v).Knows env n :=
  knows_of_boundTo (by rw [boundTo_bind h, if_pos ⟨rfl, rfl⟩]; rfl)

/-- Arguments are bound to the names of parameters, and no name is lost. -/
lemma isSome_boundTo_bindAll (henv : env < σ.environments.size) {ps : List String} {vs : List Value}
    (hlen : vs.length = ps.length) (hn : n ∈ ps ∨ (boundTo σ.environments env n).isSome = true) :
    (boundTo ((ps.zip vs).foldl (fun s (p, v) => s.bind env p v) σ).environments env n).isSome =
      true := by
  induction ps generalizing vs σ with
  | nil => exact hn.resolve_left List.not_mem_nil
  | cons p ps ih =>
      cases vs with
      | nil => cases hlen
      | cons v vs =>
          refine ih (by rwa [size_bind]) (Nat.succ.inj hlen) ?_
          rw [boundTo_bind henv]
          rcases hn with hn | hn
          · rcases List.mem_cons.mp hn with rfl | hn
            · exact .inr (by rw [if_pos ⟨rfl, rfl⟩]; rfl)
            · exact .inl hn
          · exact .inr (by split_ifs <;> first | rfl | exact hn)

/-- In a call the own name of the function and its parameters are bound. -/
lemma knows_enter (σ : Store) (ref : Nat) {f : FunctionObject} {args : List Value}
    (hlen : args.length = f.params.length) (hn : f.name = some n ∨ n ∈ f.params) :
    (Evaluator.enter σ ref f args).2.Knows σ.environments.size n := by
  obtain ⟨es, hes, hsize, -, hbound⟩ := boundTo_own σ ref f
  have henter : (Evaluator.enter σ ref f args).2 =
      (f.params.zip args).foldl (fun s (p, v) => s.bind σ.environments.size p v)
      { σ with environments := es } := by
    rw [← hes]
    rfl
  rw [henter]
  refine knows_of_boundTo (isSome_boundTo_bindAll (by simp only [hsize]; omega) hlen ?_)
  refine hn.symm.imp_right fun hown => ?_
  rw [hbound, if_pos ⟨rfl, hown⟩]
  rfl

/-- Every function reads the name only where it is certain to be bound, if it is where the function
was made. -/
def Stocked (n : String) (σ : Store) : Prop :=
  ∀ f ∈ σ.functions, f.environment < σ.environments.size ∧
    ∃ s : Standing, (s = .sure → σ.Knows f.environment n) ∧
    ∀ r ∈ ((Expr.function f.name f.params f.body).survey n s).1, r = .sure

/-- Without new functions nothing is asked anew. -/
lemma Stocked.runsIn (h : σ.Stocked n) (hr : σ.RunsIn env σ') (hf : σ'.functions = σ.functions) :
    σ'.Stocked n := by
  intro f hmem
  obtain ⟨hlt, s, hs, hall⟩ := h f (hf ▸ hmem)
  exact ⟨Nat.lt_of_lt_of_le hlt hr.size_le, s, fun heq => (hs heq).runsIn hr, hall⟩

/-- The name stands at least like this in the environment. -/
structure Stands (n : String) (env : Nat) (s : Standing) (σ : Store) : Prop where
  inside : env < σ.environments.size
  stocked : σ.Stocked n
  knows : s = .sure → σ.Knows env n

end Store

/-! ## Evaluation keeps to the survey -/

namespace Eval

variable {n : String} {env : Nat} {α β : Type}

/-- The step does not find the name missing, and behind it the name stands at least like this. -/
structure Leaves (n : String) (env : Nat) (s : Standing) (x : Eval α) (σ : Store) : Prop where
  runs : σ.RunsIn env (x.after σ)
  stocked : (x.after σ).Stocked n
  fault : ∀ f σ', x σ = .error (.fault f) σ' → f ≠ .undefinedVariable n
  knows : ∀ a σ', x σ = .ok a σ' → s = .sure → σ'.Knows env n

/-- A name that is found before a step is found behind it. -/
lemma knows_of_ok {x : Eval α} {σ σ' : Store} {a : α} (hruns : σ.RunsIn env (x.after σ))
    (ha : x σ = .ok a σ') (h : σ.Knows env n) : σ'.Knows env n := by
  rw [after, ha] at hruns
  exact h.runsIn hruns

/-- The survey tells how the name stands behind the step, if it is certain to be bound wherever it
is read. -/
def Surveyed (n : String) (env : Nat) (w : Survey) (x : Eval α) : Prop :=
  ∀ (s : Standing) (σ : Store), σ.Stands n env s → (∀ r ∈ (w s).1, r = .sure) →
    x.Leaves n env (w s).2 σ

namespace Surveyed

variable {w w' : Survey} {x y : Eval α}

/-- A step that neither reads the name nor makes a function. -/
lemma idle (hruns : x.RunsIn env) (hfunctions : ∀ σ, (x.after σ).functions = σ.functions)
    (hfault : ∀ σ f σ', x σ = .error (.fault f) σ' → f ≠ .undefinedVariable n) :
    Surveyed n env .idle x := by
  intro s σ hσ _
  exact ⟨hruns σ, hσ.stocked.runsIn (hruns σ) (hfunctions σ), hfault σ,
    fun a σ' ha hs => knows_of_ok (hruns σ) ha (hσ.knows hs)⟩

/-- A step that only changes values in stores. -/
lemma neutral (h : x.Neutral) : Surveyed n env .idle x :=
  idle (.neutral h) (fun σ => (h.beside σ).functions) fun σ f σ' hf heq => by
    have htree := h.fault σ f σ' hf
    rw [heq] at htree
    cases htree

/-- A fault about something else. -/
lemma fail {f : Fault} (hf : f ≠ .undefinedVariable n) :
    Surveyed n env .idle (Eval.fail f : Eval α) :=
  idle (.fail f) (fun _ => rfl) fun _ _ _ h => by
    cases h
    exact hf

/-- Reading the name finds it, if it was certain to be bound. -/
lemma lookup (m : String) : Surveyed n env (.reading (m == n)) (Eval.lookup env m) := by
  intro s σ hσ hall
  have hruns : (Eval.lookup env m).RunsIn env := .lookup m
  have hbeside := Beside.lookup env m
  refine ⟨hruns σ, hσ.stocked.runsIn (hruns σ) (hbeside σ).functions, fun f σ' hf heq => ?_,
    fun a σ' ha hs => knows_of_ok (hruns σ) ha (hσ.knows hs)⟩
  unfold Eval.lookup at hf
  split at hf
  · cases hf
  · next hnone =>
      split at hf
      · cases hf
      · next hbuiltin =>
          subst heq
          cases hf
          have hsure : s = .sure := hall s (by simp [Survey.reading])
          rcases hσ.knows hsure with h | h
          · rw [hbuiltin] at h
            cases h
          · rw [hnone] at h
            cases h

/-- One step after the other; if the first one stops, the second one is not reached. -/
lemma bind {f : α → Eval β} (hx : Surveyed n env w x) (hf : ∀ a, Surveyed n env w' (f a)) :
    Surveyed n env (w.andThen w') (x >>= f) := by
  intro s σ hσ hall
  obtain ⟨hall, hall'⟩ := List.forall_mem_append.mp hall
  obtain ⟨hruns, hstocked, hfault, hknows⟩ := hx s σ hσ hall
  rw [after] at hruns hstocked
  cases hr : x σ with
  | ok a σ' =>
      rw [hr] at hruns hstocked
      have hσ' : σ'.Stands n env (w s).2 :=
        ⟨Nat.lt_of_lt_of_le hσ.inside hruns.size_le, hstocked, hknows a σ' hr⟩
      have hnext := hf a (w s).2 σ' hσ' hall'
      have hrun : (x >>= f) σ = f a σ' := by rw [run_bind, hr]
      refine ⟨?_, ?_, fun g σ'' hg => hnext.fault g σ'' (hrun ▸ hg),
        fun b σ'' hb => hnext.knows b σ'' (hrun ▸ hb)⟩
      · rw [after, hrun]
        exact hruns.trans hnext.runs
      · rw [after, hrun]
        exact hnext.stocked
  | error e σ' =>
      rw [hr] at hruns hstocked
      have hrun : (x >>= f) σ = .error e σ' := by rw [run_bind, hr]
      refine ⟨?_, ?_, fun g σ'' hg => ?_, fun b σ'' hb => ?_⟩
      · rw [after, hrun]
        exact hruns
      · rw [after, hrun]
        exact hstocked
      · rw [hrun] at hg
        cases hg
        exact hfault _ _ hr
      · rw [hrun] at hb
        cases hb

/-- After it comes a step that only changes values in stores. -/
lemma bindNeutral {f : α → Eval β} (hx : Surveyed n env w x) (hf : ∀ a, (f a).Neutral) :
    Surveyed n env w (x >>= f) := by
  rw [← w.andThen_idle]
  exact hx.bind fun a => .neutral (hf a)

/-- Only one branch is evaluated. -/
lemma branches (b : Bool) (hx : Surveyed n env w x) (hy : Surveyed n env w' y) :
    Surveyed n env (.branches w w') (if b then x else y) := by
  intro s σ hσ hall
  obtain ⟨hall, hall'⟩ := List.forall_mem_append.mp hall
  cases b with
  | true =>
      have hyes := hx s σ hσ hall
      exact ⟨hyes.runs, hyes.stocked, hyes.fault,
        fun a σ' ha hs => hyes.knows a σ' ha (Standing.meet_eq_sure hs).1⟩
  | false =>
      have hno :=
        hy _ σ ⟨hσ.inside, hσ.stocked, fun hs => hσ.knows (Standing.meet_eq_sure hs).1⟩ hall'
      exact ⟨hno.runs, hno.stocked, hno.fault,
        fun a σ' ha hs => hno.knows a σ' ha (Standing.meet_eq_sure hs).2⟩

/-- Binding a name leaves functions as they are. -/
lemma bindName (m : String) (v : Value) : Surveyed n env .idle (Eval.bind env m v) :=
  idle (fun σ => .bind σ env m v) (fun _ => rfl) fun _ _ _ h => by cases h

/-- The value is evaluated before the name is bound. -/
lemma binding (m : String) {x : Eval Value} (hx : Surveyed n env w x) :
    Surveyed n env (.binding (m == n) w)
      (x >>= fun v => Eval.bind env m v >>= fun _ => Pure.pure Value.nil) := by
  have hbind := hx.bind fun v => (bindName m v).bindNeutral fun _ => .pure Value.nil
  rw [Survey.andThen_idle] at hbind
  by_cases hm : m = n
  · subst hm
    intro s σ hσ hall
    rw [Survey.binding, beq_self_eq_true, if_pos rfl] at hall ⊢
    have hσ' : σ.Stands m env s.begun :=
      ⟨hσ.inside, hσ.stocked, fun hs => hσ.knows (Standing.begun_eq_sure hs)⟩
    have hleaves := hbind s.begun σ hσ' hall
    refine ⟨hleaves.runs, hleaves.stocked, hleaves.fault, fun a σ' ha _ => ?_⟩
    rw [run_bind] at ha
    cases hr : x σ with
    | error e σ₁ =>
        rw [hr] at ha
        cases ha
    | ok v σ₁ =>
        rw [hr] at ha
        cases ha
        have hruns := (hx s.begun σ hσ' hall).runs
        rw [after, hr] at hruns
        exact Store.knows_bind (Nat.lt_of_lt_of_le hσ.inside hruns.size_le) m v
  · rw [beq_false_of_ne hm]
    exact hbind

/-- A new function is stocked, if the survey of it is. -/
lemma newFunction (name : Option String) (params : List String) (body : List Stmt) :
    Surveyed n env ((Expr.function name params body).survey n)
      (alloc fun s => s.newFunction ⟨name, params, body, env⟩) := by
  intro s σ hσ hall
  have hruns : σ.RunsIn env (σ.newFunction ⟨name, params, body, env⟩).2 := .newFunction σ _
  refine ⟨hruns, fun f hf => ?_, fun f σ' hf => ?_, fun a σ' ha hs => ?_⟩
  · obtain hf | rfl := Array.mem_push.mp hf
    · obtain ⟨hlt, s', hs', hall'⟩ := hσ.stocked f hf
      exact ⟨hlt, s', fun heq => (hs' heq).runsIn hruns, hall'⟩
    · exact ⟨hσ.inside, s, fun heq => (hσ.knows heq).runsIn hruns, hall⟩
  · cases hf
  · cases ha
    exact (hσ.knows hs).runsIn hruns

/-- A return leads nowhere in the function. -/
lemma last {x : Eval Value} (hx : Surveyed n env w x) :
    Surveyed n env (.last w) (x >>= fun v => (throw (.returned v) : Eval Value)) := by
  intro s σ hσ hall
  have hreturned (v : Value) : (throw (.returned v) : Eval Value).Neutral := .returned v
  have hleaves := hx.bindNeutral hreturned s σ hσ hall
  refine ⟨hleaves.runs, hleaves.stocked, hleaves.fault, fun a σ' ha _ => ?_⟩
  rw [run_bind] at ha
  cases hr : x σ with
  | ok v σ₁ =>
      rw [hr] at ha
      cases ha
  | error e σ₁ =>
      rw [hr] at ha
      cases ha

/-! ### Trees -/

section

variable {call : Nat → List Value → Eval Value}

/-- Expressions are evaluated from left to right. -/
lemma exprs {es : List Expr} (h : ∀ e ∈ es, Surveyed n env (e.survey n) (e.eval call env)) :
    Surveyed n env (Expr.surveyAll n es) (Expr.evalAll call env es) := by
  induction es with
  | nil => exact .neutral (.pure [])
  | cons e es ih =>
      obtain ⟨he, hes⟩ := List.forall_mem_cons.mp h
      exact he.bind fun v => (ih hes).bindNeutral fun vs => .pure _

/-- Pairs are evaluated in the order in which they are given here. -/
lemma pairs {ps : List (Expr × Expr)}
    (h : ∀ p ∈ ps, Surveyed n env (p.1.survey n) (p.1.eval call env) ∧
      Surveyed n env (p.2.survey n) (p.2.eval call env)) :
    Surveyed n env (.all (ps.map fun p => (p.1.survey n).andThen (p.2.survey n)))
      (sequence (Expr.evalPairs call env ps)) := by
  induction ps with
  | nil => exact .neutral (.pure [])
  | cons p ps ih =>
      obtain ⟨⟨hk, hv⟩, hps⟩ := List.forall_mem_cons.mp h
      rw [List.map_cons, Survey.all, Survey.andThen_assoc, Expr.sequence_evalPairs]
      exact hk.bind fun k => hv.bind fun v => (ih hps).bindNeutral fun items => .pure _

/-- Statements are done one after the other. -/
lemma stmts_of {ss : List Stmt} (h : ∀ s ∈ ss, Surveyed n env (s.survey n) (s.eval call env))
    (last : Value) :
    Surveyed n env (Stmt.surveyAll n ss) (Stmt.evalAll call env last ss) := by
  induction ss generalizing last with
  | nil => exact .neutral (.pure last)
  | cons s ss ih =>
      obtain ⟨hs, hss⟩ := List.forall_mem_cons.mp h
      exact hs.bind fun v => ih hss v

variable (hcall : ∀ ref args, Surveyed n env .idle (call ref args))

include hcall

/-- A call keeps to what is known of calls, and a builtin reads no name. -/
lemma apply (f : Value) (args : List Value) : Surveyed n env .idle (Eval.apply call f args) := by
  cases f with
  | function ref => exact hcall ref args
  | builtin b => exact .neutral (.builtin b args)
  | _ => exact .neutral (.fail rfl)

/-- Every kind of tree keeps to its survey, if its parts do. -/
lemma closed : Tree.Closed (Expr.WithParts fun e => Surveyed n env (e.survey n) (e.eval call env))
    (fun s => Surveyed n env (s.survey n) (s.eval call env)) where
  ident m := ⟨.lookup m, by simp⟩
  integer _ := ⟨.neutral (.pure _), by simp⟩
  float _ := ⟨.neutral (.pure _), by simp⟩
  string _ := ⟨.neutral (.pure _), by simp⟩
  boolean _ := ⟨.neutral (.pure _), by simp⟩
  nil := ⟨.neutral (.pure _), by simp⟩
  array items ih := ⟨(exprs fun e he => (ih e he).1).bindNeutral fun vs => .newArray _, by simp⟩
  hash ps ih := by
    refine ⟨?_, by simp⟩
    dsimp only
    rw [Expr.survey_hash, Expr.eval, Expr.evalPairs_sorted]
    refine (pairs fun p hp => ?_).bindNeutral fun items => .buildHash items
    obtain ⟨hk, hv⟩ := ih p (mem_sortedPairs.mp hp)
    exact ⟨hk.1, hv.1⟩
  function name params body _ := ⟨.newFunction name params body, by simp⟩
  unary op right ih := by
    refine ⟨?_, by simp⟩
    dsimp only
    rw [Expr.survey, ← Survey.andThen_idle (right.survey n), Expr.eval]
    refine ih.1.bind fun v => ?_
    cases Operator.unary? op with
    | some code => exact .neutral (.ofExcept fun _ => Value.isOfTree_unary)
    | none => exact .fail (by simp)
  binary op left right ih ih' := by
    refine ⟨?_, by simp⟩
    dsimp only
    rw [Expr.survey, Expr.eval]
    cases Operator.binary? op with
    | none =>
        have hfail : Surveyed n env .idle (Eval.fail (.unknownOperator op) : Eval Value) :=
          .fail (by simp)
        have h := ih.1.bind fun _ => ih'.1.bind fun _ => hfail
        rwa [Survey.andThen_idle] at h
    | some known =>
        obtain ⟨code, swapped⟩ := known
        cases swapped with
        | true =>
            exact ih'.1.bind fun r => ih.1.bindNeutral fun l => .ofExcept fun _ =>
              Value.isOfTree_binary
        | false =>
            exact ih.1.bind fun l => ih'.1.bindNeutral fun r => .ofExcept fun _ =>
              Value.isOfTree_binary
  index left index ih ih' := by
    refine ⟨ih.1.bind fun l => ih'.1.bindNeutral fun i => .getIndex l i, fun l i heq => ?_⟩
    cases heq
    exact ⟨ih.1, ih'.1⟩
  cond condition yes no ih ihyes ihno := by
    refine ⟨?_, by simp⟩
    dsimp only
    rw [Expr.survey_cond, Expr.eval_cond]
    exact ih.1.bind fun v => branches v.truthy (stmts_of ihyes _) (stmts_of ihno _)
  call callee args ih ihargs := by
    refine ⟨?_, by simp⟩
    have hargs := exprs fun e he => (ihargs e he).1
    dsimp only
    rw [Expr.survey, ← Survey.andThen_idle (Expr.surveyAll n args)]
    exact ih.1.bind fun f => hargs.bind fun vs => apply hcall f vs
  define m value ih := .binding m ih.1
  assign target value ih ih' := by
    cases target with
    | ident m => exact .binding m ih'.1
    | index left index =>
        obtain ⟨hl, hi⟩ := ih.2 left index rfl
        rw [Stmt.survey, ← Survey.andThen_idle (value.survey n)]
        exact hl.bind fun l => hi.bind fun i => ih'.1.bind fun v =>
          (Surveyed.neutral (.setIndex l i v)).bindNeutral fun _ => .pure _
    | _ => exact .fail (by simp)
  ret value ih := .last ih.1
  expr e ih := ih.1
  block body ih := stmts_of ih _

/-- So statements keep to theirs. -/
lemma stmts (ss : List Stmt) (last : Value) :
    Surveyed n env (Stmt.surveyAll n ss) (Stmt.evalAll call env last ss) :=
  stmts_of (fun s _ => (closed hcall).forall_stmt s) last

/-- And so does a program, whatever value its last expression has. -/
lemma top (ss : Program) (last : Value) :
    Surveyed n env (Stmt.surveyAll n ss) (Evaluator.evalTop call env last ss) := by
  induction ss generalizing last with
  | nil => exact .neutral (.pure last)
  | cons s ss ih => exact ((closed hcall).forall_stmt s).bind fun v => ih _

end

end Surveyed

end Eval

/-! ## Calls and programs -/

namespace Evaluator

variable {n : String}

/-- Where a call begins the name stands as the function says. -/
lemma stands_enter {σ : Store} (h : σ.Stocked n) {ref : Nat} {f : FunctionObject}
    (hf : σ.functions[ref]? = some f) {args : List Value} (hlen : args.length = f.params.length) :
    ∃ s, (enter σ ref f args).2.Stands n (enter σ ref f args).1 s ∧
      ∀ r ∈ (Stmt.surveyAll n f.body s).1, r = .sure := by
  obtain ⟨hlt, s, hs, hall⟩ := h f (Array.mem_of_getElem? hf)
  have hruns := Store.RunsIn.enter σ ref f args
  have hknows := Store.knows_enter (n := n) σ ref hlen
  obtain ⟨es, heq, hsize, houter⟩ := enter_eq σ ref f args
  rw [heq] at hruns hknows ⊢
  refine ⟨if f.name == some n || f.params.contains n then .sure else s,
    ⟨?_, h.runsIn hruns rfl, fun hsure => ?_⟩, hall⟩
  · simp only [hsize]
    omega
  · split_ifs at hsure with hown
    · refine hknows ?_
      rwa [Bool.or_eq_true, beq_iff_eq, List.contains_iff_mem] at hown
    · exact ((hs hsure).runsIn hruns).of_outer houter hlt

/-- **A call does not find the name missing.**  The induction is on the number of calls that may be
nested. -/
theorem surveyed_call (maxFrames left env ref : Nat) (args : List Value) :
    Eval.Surveyed n env .idle (callFunction maxFrames left ref args) := by
  induction left using Nat.strongRecOn generalizing env ref args with
  | ind left ih =>
      intro s σ hσ _
      have hruns : σ.RunsIn env ((callFunction maxFrames left ref args).after σ) :=
        .of_framed (framed_call maxFrames left ref args σ)
      have hknows (v : Value) (σ' : Store) (hv : callFunction maxFrames left ref args σ = .ok v σ')
          (hs : s = .sure) : σ'.Knows env n := Eval.knows_of_ok hruns hv (hσ.knows hs)
      obtain ⟨f, hf, hr⟩ | ⟨f, k, hf, hlen, rfl, hr⟩ := callFunction_cases maxFrames left ref args σ
      · refine ⟨hruns, by rw [Eval.after, hr]; exact hσ.stocked, fun g σ' hg hname => ?_, hknows⟩
        rw [hr] at hg
        cases hg
        rw [hname] at hf
        cases hf
      · obtain ⟨s', hstands, hall⟩ := stands_enter hσ.stocked hf hlen
        have hbody := Eval.Surveyed.stmts (ih k (Nat.lt_succ_self k) (enter σ ref f args).1) f.body
          .nil s' _ hstands hall
        have hstocked := hbody.stocked
        rw [← settle_after] at hstocked
        refine ⟨hruns, by rw [Eval.after, hr]; exact hstocked, fun g σ' hg => ?_, hknows⟩
        rw [hr] at hg
        exact hbody.fault g σ' (settle_eq_fault hg)

/-- **A name that is certain to be bound wherever it is read is never found missing.** -/
theorem finds_run {e : Evaluator} {s : Standing} (he : e.store.Stands n e.environment s)
    {p : Program} (h : ∀ r ∈ (Stmt.surveyAll n p s).1, r = .sure) :
    (e.run p).1 ≠ .error (.undefinedVariable n) := by
  have htop := Eval.Surveyed.top (surveyed_call e.maxFrames (e.maxFrames - 1) e.environment) p .nil
    s e.store he h
  intro hrun
  rw [run] at hrun
  split at hrun
  · cases hrun
  · cases hrun
  · next hr =>
      cases hrun
      exact htop.fault _ _ hr rfl

end Evaluator

end Marmoset
