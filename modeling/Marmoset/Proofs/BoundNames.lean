import Marmoset.Proofs.ScopeRules
import Marmoset.Proofs.SlotNames

/-!
# The names that compiling binds

However compiling ends, with code or with an error somewhere inside, all that happened to the scope
of the top level is that some names were bound to the next slots, one after the other.  These are
names that the statements bind at the top level: by a `let`, or by an assignment if the name had no
slot.

* `SymbolTable.Binds` — this relation between tables.
* `Compile.Touches` — a step of the compiler keeps to it, with either outcome.
* **`Stmt.touches_compileAll`** — so does compiling statements.
* **`Compiler.symbols_compile`** — what a program leaves of the names, whatever comes of it.
-/

namespace Marmoset

/-- The top level of `t'` is that of `t` with more names: if `t` is at the top level, some that `a`
binds, and otherwise none. -/
def SymbolTable.Binds (a : Mentions) (t t' : SymbolTable) : Prop :=
  ∃ names, t'.outermost = t.outermost.defineGlobals names ∧
    ∀ n ∈ names, t.outer = [] ∧ (n ∈ a.lets ∨ n ∈ a.binds ∧ ¬ t.Owns n)

namespace SymbolTable.Binds

variable {a b : Mentions} {t t₁ t' : SymbolTable}

lemma of_eq (h : t'.outermost = t.outermost) : t.Binds a t' :=
  ⟨[], h, by simp⟩

/-- Inside a function nothing happens to the top level. -/
lemma outermost_eq (h : t.Binds a t') (hin : t.outer ≠ []) : t'.outermost = t.outermost := by
  obtain ⟨names, heq, hnames⟩ := h
  cases names with
  | nil => exact heq
  | cons n ns => exact absurd (hnames n List.mem_cons_self).1 hin

/-- A step that binds no more than `a` allows binds no more than what allows all of `a`. -/
lemma mono (h : t.Binds a t') (hw : a.Within b) : t.Binds b t' := by
  obtain ⟨names, heq, hnames⟩ := h
  refine ⟨names, heq, fun n hn => ⟨(hnames n hn).1, ?_⟩⟩
  exact (hnames n hn).2.imp (fun hl => hw.lets hl) (fun hb => ⟨hw.binds hb.1, hb.2⟩)

end SymbolTable.Binds

namespace Scope

/-- The last of the names bound stands for its new slot, and other names for what they stood for. -/
lemma find?_defineGlobal (s : Scope) (n m : String) :
    (s.defineGlobal n).find? m = if n = m then some ⟨n, .global, s.definitions⟩ else s.find? m :=
  find?_bind s ⟨n, .global, s.definitions⟩ m

/-- Names that are not bound stand for what they stood for. -/
lemma find?_defineGlobals_of_not_mem (s : Scope) {names : List String} {n : String}
    (h : n ∉ names) :
    (s.defineGlobals names).find? n = s.find? n := by
  induction names generalizing s with
  | nil => rfl
  | cons m ms ih =>
      rw [List.mem_cons, not_or] at h
      rw [defineGlobals_cons, ih _ h.2, find?_defineGlobal, if_neg (Ne.symm h.1)]

/-- A name that has a slot goes on to have one. -/
lemma owned_defineGlobals (s : Scope) (names : List String) {n : String}
    (h : ∃ x, s.find? n = some x ∧ x.kind.owned = true) :
    ∃ x, (s.defineGlobals names).find? n = some x ∧ x.kind.owned = true := by
  induction names generalizing s with
  | nil => exact h
  | cons m ms ih =>
      refine ih _ ?_
      rw [find?_defineGlobal]
      split_ifs
      · exact ⟨_, rfl, rfl⟩
      · exact h

end Scope

namespace SymbolTable.Binds

variable {a : Mentions} {t t₁ t' : SymbolTable}

/-- What is bound in two steps at the same depth; a name that the first step bound has a slot for
the second one. -/
lemma trans (h : t.Binds a t₁) (hdepth : t₁.depth = t.depth) (h' : t₁.Binds a t') :
    t.Binds a t' := by
  obtain ⟨names, heq, hnames⟩ := h
  obtain ⟨names', heq', hnames'⟩ := h'
  refine ⟨names ++ names', by rw [heq', heq, Scope.defineGlobals_append], fun n hn => ?_⟩
  rcases List.mem_append.mp hn with hn | hn
  · exact hnames n hn
  · obtain ⟨htop₁, hwhy⟩ := hnames' n hn
    have htop : t.outer = [] := by
      rwa [depth, depth, htop₁, List.length_nil, eq_comm, List.length_eq_zero_iff] at hdepth
    refine ⟨htop, hwhy.imp_right fun hb => ⟨hb.1, fun howns => hb.2 ?_⟩⟩
    rw [Owns, ← outermost_of_global htop₁, heq]
    rw [Owns, ← outermost_of_global htop] at howns
    exact Scope.owned_defineGlobals _ _ howns

/-- A definition binds its name, at the top level anew. -/
lemma define (t : SymbolTable) (n : String) :
    t.Binds { binds := [n], lets := [n] } (t.define n).2 := by
  rw [Binds, outermost_define]
  split_ifs with htop
  · exact ⟨[n], rfl, fun m hm => ⟨htop, .inl hm⟩⟩
  · exact ⟨[], rfl, by simp⟩

/-- An assignment binds its name only if there is no slot for it. -/
lemma assignable (t : SymbolTable) (n : String) : t.Binds { binds := [n] } (t.assignable n).2 := by
  rcases t.assignable_cases n with ⟨x, -, -, heq⟩ | ⟨hno, heq⟩ <;> rw [heq]
  · exact .of_eq rfl
  · rw [Binds, outermost_define]
    split_ifs with htop
    · refine ⟨[n], rfl, fun m hm => ⟨htop, .inr ⟨hm, ?_⟩⟩⟩
      rintro ⟨x, hx, ho⟩
      rw [List.mem_singleton.mp hm] at hx
      rw [hno x hx] at ho
      cases ho
    · exact ⟨[], rfl, by simp⟩

end SymbolTable.Binds

/-! ## Steps of the compiler -/

/-- However the step ended, names of the top level were bound as `a` allows, and if it ended well
the functions that were entered were left again. -/
def SymbolTable.Touched {α : Type} (a : Mentions) (t : SymbolTable) :
    EStateM.Result CompileError Compiler α → Prop
  | .ok _ c => t.Binds a c.symbols ∧ c.symbols.depth = t.depth
  | .error _ c => t.Binds a c.symbols

/-- The step binds names of the top level as `a` allows. -/
def Compile.Touches {α : Type} (a : Mentions) (x : Compile α) : Prop :=
  ∀ c : Compiler, c.symbols.Touched a (x c)

namespace Compile.Touches

variable {α β : Type} {a b : Mentions}

/-- What touches no more than `a` allows touches no more than what allows all of `a`. -/
lemma mono {x : Compile α} (hx : Touches a x) (hw : a.Within b) : Touches b x := by
  intro c
  have h := hx c
  cases hc : x c with
  | ok v c' =>
      rw [hc] at h
      exact ⟨h.1.mono hw, h.2⟩
  | error e c' =>
      rw [hc] at h
      exact SymbolTable.Binds.mono h hw

/-- Steps one after the other bind what each of them binds, also where the second one stops. -/
lemma bind {x : Compile α} {f : α → Compile β} (hx : Touches a x) (hf : ∀ v, Touches a (f v)) :
    Touches a (x >>= f) := by
  intro c
  have h := hx c
  show c.symbols.Touched a (EStateM.bind x f c)
  unfold EStateM.bind
  cases hc : x c with
  | ok v c₁ =>
      rw [hc] at h
      obtain ⟨hbinds, hdepth⟩ := h
      have h' := hf v c₁
      dsimp only
      cases hc' : f v c₁ with
      | ok w c' =>
          rw [hc'] at h'
          exact ⟨hbinds.trans hdepth h'.1, h'.2.trans hdepth⟩
      | error e c' =>
          rw [hc'] at h'
          exact hbinds.trans hdepth h'
  | error e c' =>
      rw [hc] at h
      exact h

lemma pure (v : α) : Touches a (Pure.pure v) :=
  fun _ => ⟨.of_eq rfl, rfl⟩

/-- An error binds nothing. -/
lemma throw (e : CompileError) : Touches a (throw e : Compile α) :=
  fun _ => .of_eq rfl

/-- Writing an instruction binds nothing. -/
lemma emit (op : Opcode) (operands : List Nat) : Touches a (Compiler.emit op operands) := by
  intro c
  unfold Compiler.emit
  cases Compiler.overflow? op operands with
  | none => exact ⟨.of_eq rfl, rfl⟩
  | some n => exact .of_eq rfl

lemma emit_ (op : Opcode) (operands : List Nat) : Touches a (Compiler.emit_ op operands) :=
  (emit op operands).bind fun _ => pure _

lemma land (position : Nat) (op : Opcode) : Touches a (Compiler.land position op) := by
  intro c
  unfold Compiler.land
  dsimp only
  cases Compiler.overflow? op [c.buffer.code.size] with
  | none => exact ⟨.of_eq rfl, rfl⟩
  | some n => exact .of_eq rfl

/-- Adding a constant binds nothing. -/
lemma addConstant (k : Constant) : Touches a (Compiler.addConstant k) :=
  fun _ => ⟨.of_eq rfl, rfl⟩

lemma literal (k : Constant) : Touches a (Compiler.literal k) :=
  (addConstant k).bind fun _ => emit_ _ _

/-- A definition binds its name and no other. -/
lemma define (n : String) : Touches { binds := [n], lets := [n] } (Compiler.define n) :=
  fun c => ⟨.define c.symbols n, rfl⟩

/-- An assignment binds its name and no other. -/
lemma assignable (n : String) : Touches { binds := [n] } (Compiler.assignable n) := by
  intro c
  have h := SymbolTable.Binds.assignable c.symbols n
  have hdepth := SymbolTable.depth_assignable c.symbols n
  unfold SymbolTable.assignable at h hdepth
  unfold Compiler.assignable
  cases hn : c.symbols.findHere? n with
  | none =>
      rw [hn] at h hdepth
      exact ⟨h, hdepth⟩
  | some x =>
      rw [hn] at h hdepth
      dsimp only at h hdepth ⊢
      cases ho : x.kind.owned with
      | true =>
          rw [ho] at h hdepth
          exact ⟨h, hdepth⟩
      | false =>
          rw [ho] at h hdepth
          exact ⟨h, hdepth⟩

/-- Looking up a name captures, and captures bind nothing. -/
lemma resolve (n : String) : Touches a (Compiler.resolve n) := by
  intro c
  unfold Compiler.resolve
  cases hr : c.symbols.resolve n with
  | none => exact .of_eq rfl
  | some r => exact ⟨.of_eq (SymbolTable.outermost_resolve hr), SymbolTable.depth_resolve hr⟩

lemma load (x : Symbol) : Touches a (Compiler.load x) := by
  unfold Compiler.load
  cases x.kind <;> exact emit_ _ _

lemma store (x : Symbol) : Touches a (Compiler.store x) := by
  unfold Compiler.store
  cases x.kind <;> exact emit_ _ _

/-- Loads of captured values bind nothing. -/
lemma loadAll (xs : List Symbol) : Touches a (Compiler.loadAll xs) := by
  induction xs with
  | nil => exact pure _
  | cons x xs ih => exact (load x).bind fun _ => ih

lemma endBranch : Touches a Compiler.endBranch := by
  intro c
  unfold Compiler.endBranch
  split_ifs
  · exact ⟨.of_eq rfl, rfl⟩
  · exact emit_ .pushNil [] c

lemma endFunction : Touches a Compiler.endFunction := by
  intro c
  unfold Compiler.endFunction
  dsimp only
  split_ifs
  · exact ⟨.of_eq rfl, rfl⟩
  · exact emit_ .returnNil [] { c with buffer := c.buffer.returnLast }
  · exact ⟨.of_eq rfl, rfl⟩
  · exact emit_ .returnNil [] c

/-- The end of a function leaves the top level as it is. -/
lemma leaveFunction {c : Compiler} (hin : c.symbols.outer ≠ []) :
    ∃ r c', Compiler.leaveFunction c = .ok r c' ∧ c'.symbols.outermost = c.symbols.outermost ∧
      c.symbols.depth = c'.symbols.depth + 1 := by
  obtain ⟨o, os, ho⟩ := List.exists_cons_of_ne_nil hin
  have hleave : c.symbols.leave =
      some (⟨c.symbols.current.free, c.symbols.current.definitions⟩, ⟨o, os⟩) := by
    rw [SymbolTable.leave, ho]
  unfold Compiler.leaveFunction
  rw [hleave]
  cases c.outer with
  | nil => exact ⟨_, _, rfl, SymbolTable.outermost_leave hleave, SymbolTable.depth_leave hleave⟩
  | cons b bs =>
      exact ⟨_, _, rfl, SymbolTable.outermost_leave hleave, SymbolTable.depth_leave hleave⟩

/-- The names that a function binds are its own. -/
lemma function (name : Option String) (params : List String) {body : Compile Unit}
    (hbody : Touches b body) :
    Touches a (Compiler.function name params body) := by
  intro c
  set c₁ : Compiler :=
    { c with
      symbols := c.symbols.entry name params, buffer := .empty,
      outer := c.buffer :: c.outer } with hc₁
  have hin : c₁.symbols.outer ≠ [] := by simp [hc₁]
  have htop : c₁.symbols.outermost = c.symbols.outermost := SymbolTable.outermost_entry _ _ _
  have hdepth : c₁.symbols.depth = c.symbols.depth + 1 := SymbolTable.depth_entry _ _ _
  have hinside := (hbody.bind fun _ => endFunction) c₁
  have hrun : Compiler.function name params body c =
      EStateM.bind (do body; Compiler.endFunction) (fun _ => do
        let r ← Compiler.leaveFunction
        return (⟨r.1, wordCount r.2.definitions, wordCount params.length⟩, r.2.free)) c₁ := by
    show EStateM.bind body _ c₁ = EStateM.bind (EStateM.bind body _) _ c₁
    unfold EStateM.bind
    cases body c₁ <;> rfl
  rw [hrun]
  unfold EStateM.bind
  cases hc₂ : (do body; Compiler.endFunction : Compile Unit) c₁ with
  | error e c₂ =>
      rw [hc₂] at hinside
      exact .of_eq ((SymbolTable.Binds.outermost_eq hinside hin).trans htop)
  | ok v c₂ =>
      rw [hc₂] at hinside
      obtain ⟨hbinds, hdepth₂⟩ := hinside
      have hin₂ : c₂.symbols.outer ≠ [] := by
        intro h
        rw [hdepth, SymbolTable.depth, h] at hdepth₂
        cases hdepth₂
      obtain ⟨r, c₃, hc₃, htop₃, hdepth₃⟩ := leaveFunction hin₂
      have hend : c.symbols.Touched a (EStateM.Result.ok
          ((⟨r.1, wordCount r.2.definitions, wordCount params.length⟩, r.2.free) :
            CompiledFunction × List Symbol) c₃) := by
        refine ⟨.of_eq (htop₃.trans ((hbinds.outermost_eq hin).trans htop)), ?_⟩
        omega
      show c.symbols.Touched a (EStateM.bind Compiler.leaveFunction _ c₂)
      unfold EStateM.bind
      rw [hc₃]
      exact hend

/-- Steps one after the other. -/
lemma sequence {steps : List (String × Compile Unit)} (h : ∀ s ∈ steps, Touches a s.2) :
    Touches a (Compiler.sequence steps) := by
  induction steps with
  | nil => exact pure _
  | cons s steps ih =>
      obtain ⟨hs, hsteps⟩ := List.forall_mem_cons.mp h
      exact hs.bind fun _ => ih hsteps

end Compile.Touches

/-! ## Trees -/

open Compile (Touches)

/-- Expressions bind what each of them mentions. -/
lemma Expr.touches_compileAll {es : List Expr} (h : ∀ e ∈ es, Touches e.mentions e.compile) :
    Touches (Expr.mentionsAll es) (Expr.compileAll es) := by
  induction es with
  | nil => exact .pure _
  | cons e es ih =>
      obtain ⟨he, hes⟩ := List.forall_mem_cons.mp h
      exact (he.mono (Mentions.within_left _ _)).bind fun _ =>
        (ih hes).mono (Mentions.within_right _ _)

/-- Statements bind what each of them mentions. -/
lemma Stmt.touches_compileAll_of {ss : List Stmt} (h : ∀ s ∈ ss, Touches s.mentions s.compile) :
    Touches (Stmt.mentionsAll ss) (Stmt.compileAll ss) := by
  induction ss with
  | nil => exact .pure _
  | cons s ss ih =>
      obtain ⟨hs, hss⟩ := List.forall_mem_cons.mp h
      exact (hs.mono (Mentions.within_left _ _)).bind fun _ =>
        (ih hss).mono (Mentions.within_right _ _)

/-- A pair mentions no more than all pairs. -/
lemma Expr.within_mentionsPairs {p : Expr × Expr} {ps : List (Expr × Expr)} (h : p ∈ ps) :
    p.1.mentions.Within (Expr.mentionsPairs ps) ∧ p.2.mentions.Within (Expr.mentionsPairs ps) := by
  induction ps with
  | nil => cases h
  | cons q ps ih =>
      rcases List.mem_cons.mp h with rfl | h
      · exact ⟨((Mentions.within_left _ _).trans (Mentions.within_left _ _)),
          ((Mentions.within_right _ _).trans (Mentions.within_left _ _))⟩
      · exact ⟨(ih h).1.trans (Mentions.within_right _ _),
          (ih h).2.trans (Mentions.within_right _ _)⟩

/-- Compiling the expression binds what it mentions, and so does compiling the two parts of an index
expression: an assignment to one compiles its parts without it. -/
def Expr.TouchesParts (e : Expr) : Prop :=
  Touches e.mentions e.compile ∧
    ∀ left index, e = .index left index → Touches left.mentions left.compile ∧
    Touches index.mentions index.compile

/-- A hash binds what its keys and values mention, in whatever order they are compiled. -/
lemma Expr.touches_hash {pairs : List (Expr × Expr)}
    (h : ∀ p ∈ pairs, Touches p.1.mentions p.1.compile ∧ Touches p.2.mentions p.2.compile) :
    Touches (Expr.mentions (.hash pairs)) (Expr.compile (.hash pairs)) := by
  rw [Expr.compile, compilePairs_eq]
  refine Touches.bind (.sequence fun s hs => ?_) fun _ => .emit_ _ _
  obtain ⟨p, hp, rfl⟩ := List.mem_map.mp ((List.mergeSort_perm _ _).mem_iff.mp hs)
  obtain ⟨hk, hv⟩ := h p hp
  obtain ⟨hwk, hwv⟩ := Expr.within_mentionsPairs hp
  exact (hk.mono hwk).bind fun _ => hv.mono hwv

/-- A function binds nothing at the top level. -/
lemma Expr.touches_function (name : Option String) (params : List String) {body : List Stmt}
    (h : ∀ s ∈ body, Touches s.mentions s.compile) :
    Touches (Expr.mentions (.function name params body))
      (Expr.compile (.function name params body)) := by
  rw [Expr.compile]
  refine Touches.bind (.function name params (Stmt.touches_compileAll_of h)) fun r => ?_
  exact (Touches.loadAll _).bind fun _ => (Touches.addConstant _).bind fun _ => .emit_ _ _

/-- A prefix operator binds what its operand mentions. -/
lemma Expr.touches_unary (op : String) {right : Expr} (h : Touches right.mentions right.compile) :
    Touches (Expr.mentions (.unary op right)) (Expr.compile (.unary op right)) := by
  rw [Expr.compile]
  refine Touches.bind h fun _ => ?_
  cases Operator.unary? op with
  | none => exact .throw _
  | some code => exact .emit_ _ _

/-- An operator between operands binds what these mention. -/
lemma Expr.touches_binary (op : String) {left right : Expr} (h : Touches left.mentions left.compile)
    (h' : Touches right.mentions right.compile) :
    Touches (Expr.mentions (.binary op left right)) (Expr.compile (.binary op left right)) := by
  have hl := h.mono (Mentions.within_left left.mentions right.mentions)
  have hr := h'.mono (Mentions.within_right left.mentions right.mentions)
  rw [Expr.compile]
  cases Operator.binary? op with
  | none => exact .throw _
  | some r =>
      obtain ⟨code, swapped⟩ := r
      cases swapped with
      | false => exact hl.bind fun _ => hr.bind fun _ => .emit_ _ _
      | true => exact hr.bind fun _ => hl.bind fun _ => .emit_ _ _

/-- A conditional binds what its condition and both branches mention. -/
lemma Expr.touches_cond {condition : Expr} {yes : List Stmt} {no : Option (List Stmt)}
    (h : Touches condition.mentions condition.compile)
    (h' : ∀ s ∈ yes, Touches s.mentions s.compile)
    (h'' : ∀ s ∈ no.getD [], Touches s.mentions s.compile) :
    Touches (Expr.mentions (.cond condition yes no)) (Expr.compile (.cond condition yes no)) := by
  have hcond := (h.mono (Mentions.within_left _ (Stmt.mentionsAll yes))).mono
    (Mentions.within_left _ (Stmt.mentionsAll (no.getD [])))
  have hyes :=
    ((Stmt.touches_compileAll_of h').mono (Mentions.within_right condition.mentions _)).mono
      (Mentions.within_left _ (Stmt.mentionsAll (no.getD [])))
  have hno := (Stmt.touches_compileAll_of h'').mono
    (Mentions.within_right (condition.mentions ++ Stmt.mentionsAll yes) _)
  rw [Expr.mentions_cond]
  cases no with
  | none =>
      rw [Expr.compile]
      exact hcond.bind fun _ => (Touches.emit _ _).bind fun _ => hyes.bind fun _ =>
        Touches.endBranch.bind fun _ =>
        (Touches.emit _ _).bind fun _ => (Touches.land _ _).bind fun _ =>
          (Touches.emit_ _ _).bind fun _ => .land _ _
  | some no =>
      rw [Expr.compile]
      exact hcond.bind fun _ => (Touches.emit _ _).bind fun _ => hyes.bind fun _ =>
        Touches.endBranch.bind fun _ =>
        (Touches.emit _ _).bind fun _ => (Touches.land _ _).bind fun _ => hno.bind fun _ =>
          Touches.endBranch.bind fun _ => .land _ _

/-- An assignment binds its target, if it is a name, and what its parts mention. -/
lemma Stmt.touches_assign {target value : Expr} (h : target.TouchesParts)
    (h' : Touches value.mentions value.compile) :
    Touches (Stmt.mentions (.assign target value)) (Stmt.compile (.assign target value)) := by
  cases target with
  | ident name =>
      exact ((Touches.assignable name).mono (Mentions.within_left _ _)).bind fun x =>
        (h'.mono (Mentions.within_right _ _)).bind fun _ => .store x
  | index left index =>
      obtain ⟨hl, hi⟩ := h.2 left index rfl
      exact (hl.mono ((Mentions.within_left _ _).trans (Mentions.within_left _ _))).bind fun _ =>
        (hi.mono ((Mentions.within_right _ _).trans (Mentions.within_left _ _))).bind fun _ =>
          (h'.mono (Mentions.within_right _ _)).bind fun _ => .emit_ _ _
  | _ => exact .throw _

/-- Each kind of tree binds no more than its parts do and than it binds itself. -/
lemma Tree.closed_touches :
    Tree.Closed Expr.TouchesParts fun s => Touches s.mentions s.compile where
  ident name := ⟨(Touches.resolve name).bind fun x => .load x, by simp⟩
  integer _ := ⟨.literal _, by simp⟩
  float _ := ⟨.literal _, by simp⟩
  string _ := ⟨.literal _, by simp⟩
  boolean b := ⟨by cases b <;> exact .emit_ _ _, by simp⟩
  nil := ⟨.emit_ _ _, by simp⟩
  array items ih :=
    ⟨(Expr.touches_compileAll fun e he => (ih e he).1).bind fun _ => .emit_ _ _, by simp⟩
  hash pairs ih := ⟨Expr.touches_hash fun p hp => ⟨(ih p hp).1.1, (ih p hp).2.1⟩, by simp⟩
  function name params body ih := ⟨Expr.touches_function name params ih, by simp⟩
  unary op right ih := ⟨Expr.touches_unary op ih.1, by simp⟩
  binary op left right ih ih' := ⟨Expr.touches_binary op ih.1 ih'.1, by simp⟩
  index left index ih ih' := by
    refine ⟨(ih.1.mono (Mentions.within_left _ _)).bind fun _ =>
      (ih'.1.mono (Mentions.within_right _ _)).bind fun _ => .emit_ _ _, fun l i heq => ?_⟩
    cases heq
    exact ⟨ih.1, ih'.1⟩
  cond condition yes no ih ih' ih'' := ⟨Expr.touches_cond ih.1 ih' ih'', by simp⟩
  call callee args ih ih' :=
    ⟨(ih.1.mono (Mentions.within_left _ _)).bind fun _ =>
      ((Expr.touches_compileAll fun e he => (ih' e he).1).mono (Mentions.within_right _ _)).bind
        fun _ => .emit_ _ _,
      by simp⟩
  define name value ih :=
    ((Touches.define name).mono (Mentions.within_left _ _)).bind fun x =>
      (ih.1.mono (Mentions.within_right _ _)).bind fun _ => .store x
  assign target value ih ih' := Stmt.touches_assign ih ih'.1
  ret value ih := ih.1.bind fun _ => .emit_ _ _
  expr e ih := ih.1.bind fun _ => .emit_ _ _
  block body ih := Stmt.touches_compileAll_of ih

/-- **Compiling binds names that the statements bind.** -/
theorem Stmt.touches_compileAll (ss : List Stmt) :
    Touches (Stmt.mentionsAll ss) (Stmt.compileAll ss) :=
  touches_compileAll_of fun s _ => Tree.closed_touches.forall_stmt s

/-! ## Programs and inputs -/

/-- What compiling a program leaves of the names, whatever comes of it. -/
lemma Compiler.symbols_compile {c : Compiler} (h : c.symbols.outer = []) (p : Program) :
    ∃ names, (c.compile p).2.symbols = ⟨c.symbols.current.defineGlobals names, []⟩ ∧
      ∀ n ∈ names, n ∈ (Stmt.mentionsAll p).lets ∨ n ∈ (Stmt.mentionsAll p).binds ∧
      ¬ c.symbols.Owns n := by
  have htouched := Stmt.touches_compileAll p c
  unfold Compiler.compile
  cases hrun : Stmt.compileAll p c with
  | ok u c' =>
      rw [hrun] at htouched
      obtain ⟨⟨names, heq, hnames⟩, hdepth⟩ := htouched
      have htop : c'.symbols.outer = [] := by
        rwa [SymbolTable.depth, SymbolTable.depth, h, List.length_nil,
          List.length_eq_zero_iff] at hdepth
      rw [SymbolTable.outermost_of_global h, SymbolTable.outermost_of_global htop] at heq
      exact ⟨names, by rw [← heq, ← htop], fun n hn => (hnames n hn).2⟩
  | error e c' =>
      rw [hrun] at htouched
      obtain ⟨names, heq, hnames⟩ := htouched
      rw [SymbolTable.outermost_of_global h] at heq
      refine ⟨names, ?_, fun n hn => (hnames n hn).2⟩
      show c'.symbols.resetToGlobal = _
      rw [SymbolTable.resetToGlobal_eq, heq]

/-- A program that cannot be compiled stops in one of its statements. -/
lemma Stmt.compileAll_error {p : Program} {c c' : Compiler} {e : CompileError}
    (h : Stmt.compileAll p c = .error e c') :
    ∃ xs s ys, p = xs ++ s :: ys ∧ (∃ c₁, Stmt.compileAll xs c = .ok () c₁) ∧
      Stmt.compileAll (xs ++ [s]) c = .error e c' := by
  induction p generalizing c with
  | nil => cases h
  | cons s ss ih =>
      have hrun (rest : List Stmt) : Stmt.compileAll (s :: rest) c =
          EStateM.bind s.compile (fun _ => Stmt.compileAll rest) c := rfl
      rw [hrun] at h
      unfold EStateM.bind at h
      cases hs : s.compile c with
      | ok u c₁ =>
          rw [hs] at h
          obtain ⟨xs, t, ys, rfl, ⟨c₂, hxs⟩, hlast⟩ := ih h
          refine ⟨s :: xs, t, ys, rfl, ⟨c₂, ?_⟩, ?_⟩
          · rw [hrun, EStateM.bind, hs]
            exact hxs
          · rw [List.cons_append, hrun, EStateM.bind, hs]
            exact hlast
      | error e' c₁ =>
          rw [hs] at h
          refine ⟨[], s, ss, rfl, ⟨c, rfl⟩, ?_⟩
          rw [List.nil_append, hrun, EStateM.bind, hs]
          exact h

end Marmoset
