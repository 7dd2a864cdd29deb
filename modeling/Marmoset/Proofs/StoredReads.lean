import Marmoset.Proofs.Calls
import Marmoset.Proofs.FunctionFree
import Marmoset.Proofs.StoredSlots

/-!
# Programs that read what was stored

A program without functions is watched while it is evaluated (`Stmt.watchAll`): at each name that is
read, the slot that the name has there must have been stored to when the name was bound last.  If
this is so in the whole run (`Program.readsStored`), then the machine comes to exactly what the
evaluator comes to.

* **`Emits.passes_storedTo`** — what was watched is passed.
* **`Program.outcomes_equal`** — the outcomes are equal.
* `Program.selfReading_differs` — a `let` that reads the name which it binds again does not keep to
  this, and the outcomes differ.
-/

namespace Marmoset

/-! ## Watching slots -/

/-- What becomes of the slots along a part that is evaluated from a store on, unless a slot is read
that was not stored to. -/
abbrev Watch := Slots → Store → Option Slots

namespace Watch

/-- Nothing is read, and no name gets a slot. -/
def idle : Watch := fun k _ => some k

/-- What comes behind a step of the evaluator is watched only if the step comes to a value. -/
def andThen {α : Type} (w : Watch) (x : Eval α) (w' : Watch) : Watch := fun k σ =>
  (w k σ).bind fun k₁ => match x σ with
    | .ok _ σ₁ => w' k₁ σ₁
    | .error _ _ => some k₁

/-- Of a conditional only one branch is evaluated; the names of the other one just get their
slots. -/
def cond (w : Watch) (x : Eval Value) (yes no : Watch) (a b : Mentions) : Watch := fun k σ =>
  (w k σ).bind fun k₁ => match x σ with
    | .ok v σ₁ => if v.truthy then (yes k₁ σ₁).map fun k₂ => k₂.gain b else no (k₁.gain a) σ₁
    | .error _ _ => some k₁

/-- The name gets a slot, and its value is stored there. -/
def binding (s : Stmt) (n : String) (value : Expr) (w : Watch) : Watch := fun k σ =>
  (w (k.gain s.slot) σ).map fun k₁ => k₁.store n value

/-- Pairs one after the other. -/
def sequence : List (Watch × Eval (Value × Value)) → Watch
  | [] => idle
  | (w, x) :: rest => w.andThen x (sequence rest)

end Watch

section

variable (call : Nat → List Value → Eval Value) (env : Nat)

mutual

/-- Watches an expression. -/
def Expr.watch : Expr → Watch
  | .ident n => fun k _ => if k.reads n then some k else none
  | .array items => Expr.watchAll items
  | .hash pairs => .sequence ((byText (Expr.watchPairs pairs)).map Prod.snd)
  | .function _ _ _ => fun _ _ => none
  | .unary _ right => right.watch
  | .binary op left right =>
    match Operator.binary? op with
    | some (_, true) => right.watch.andThen (right.eval call env) left.watch
    | _ => left.watch.andThen (left.eval call env) right.watch
  | .index left index => left.watch.andThen (left.eval call env) index.watch
  | .cond condition yes none =>
    condition.watch.cond (condition.eval call env) (Stmt.watchAll yes) .idle
      (Stmt.mentionsAll yes) {}
  | .cond condition yes (some no) =>
    condition.watch.cond (condition.eval call env) (Stmt.watchAll yes) (Stmt.watchAll no)
      (Stmt.mentionsAll yes)
      (Stmt.mentionsAll no)
  | .call callee args => callee.watch.andThen (callee.eval call env) (Expr.watchAll args)
  | _ => .idle
termination_by structural e => e

/-- Watches a statement. -/
def Stmt.watch : Stmt → Watch
  | .define n value => .binding (.define n value) n value value.watch
  | .assign (.ident n) value => .binding (.assign (.ident n) value) n value value.watch
  | .assign (.index left index) value =>
    (left.watch.andThen (left.eval call env) index.watch).andThen
      (do let _ ← left.eval call env; index.eval call env) value.watch
  | .ret value => value.watch
  | .expr e => e.watch
  | _ => fun _ _ => none
termination_by structural s => s

def Expr.watchAll : List Expr → Watch
  | [] => .idle
  | e :: es => e.watch.andThen (e.eval call env) (Expr.watchAll es)
termination_by structural es => es

/-- The text of each key, and what is done with the pair. -/
def Expr.watchPairs : List (Expr × Expr) → List (String × Watch × Eval (Value × Value))
  | [] => []
  | (k, v) :: ps =>
    (k.text, k.watch.andThen (k.eval call env) v.watch, do
      let x ← k.eval call env
      let y ← v.eval call env
      return (x, y)) :: Expr.watchPairs ps
termination_by structural ps => ps

def Stmt.watchAll : List Stmt → Watch
  | [] => .idle
  | s :: ss => s.watch.andThen (s.eval call env) (Stmt.watchAll ss)
termination_by structural ss => ss

end

/-- Watches a part of a program. -/
def Part.watch : Part → Watch
  | .expr e => e.watch call env
  | .exprs es => Expr.watchAll call env es
  | .pairs ps => .sequence ((Expr.watchPairs call env ps).map Prod.snd)
  | .stmt s => s.watch call env
  | .stmts ss | .branch ss => Stmt.watchAll call env ss

end

/-! ## What was watched is passed -/

section

variable {k k' : Slots} {σ : Store}

/-- Both steps were watched. -/
lemma Watch.of_andThen {α : Type} {w w' : Watch} {x : Eval α} (h : w.andThen x w' k σ = some k') :
    ∃ k₁, w k σ = some k₁ ∧ ∀ v σ₁, x σ = .ok v σ₁ → w' k₁ σ₁ = some k' := by
  obtain ⟨k₁, hk₁, h⟩ := Option.bind_eq_some_iff.mp h
  refine ⟨k₁, hk₁, fun v σ₁ hv => ?_⟩
  rw [hv] at h
  exact h

lemma Watch.of_cond {w yes no : Watch} {x : Eval Value} {a b : Mentions}
    (h : w.cond x yes no a b k σ = some k') :
    ∃ k₁, w k σ = some k₁ ∧
      (((∀ v σ₁, x σ = .ok v σ₁ → v.truthy = true) ∧
        ∃ k₂, k' = k₂.gain b ∧ ∀ v σ₁, x σ = .ok v σ₁ → yes k₁ σ₁ = some k₂) ∨
      ((∀ v σ₁, x σ = .ok v σ₁ → v.truthy = false) ∧ ∀ v σ₁, x σ = .ok v σ₁ →
        no (k₁.gain a) σ₁ = some k')) := by
  obtain ⟨k₁, hk₁, h⟩ := Option.bind_eq_some_iff.mp h
  refine ⟨k₁, hk₁, ?_⟩
  cases hx : x σ with
  | error e σ₁ => exact .inr ⟨nofun, nofun⟩
  | ok v σ₁ =>
      simp only [hx] at h
      split_ifs at h with hv
      · obtain ⟨k₂, hk₂, rfl⟩ := Option.map_eq_some_iff.mp h
        refine .inl ⟨fun w τ hw => ?_, k₂, rfl, fun w τ hw => ?_⟩ <;> cases hw
        · exact hv
        · exact hk₂
      · refine .inr ⟨fun w τ hw => ?_, fun w τ hw => ?_⟩ <;> cases hw
        · exact Bool.eq_false_iff.mpr hv
        · exact h

end

section

variable (call : Nat → List Value → Eval Value) (env : Nat)

lemma Expr.watchPairs_eq (pairs : List (Expr × Expr)) :
    Expr.watchPairs call env pairs = pairs.map fun p =>
      (p.1.text, (p.1.watch call env).andThen (p.1.eval call env) (p.2.watch call env), do
        let x ← p.1.eval call env
        let y ← p.2.eval call env
        return (x, y)) := by
  induction pairs with
  | nil => rfl
  | cons p pairs ih =>
      rw [Expr.watchPairs, ih]
      rfl

/-- The pairs of a hash are watched in the order in which they are compiled. -/
lemma Expr.watchPairs_sorted (pairs : List (Expr × Expr)) :
    (byText (Expr.watchPairs call env pairs)).map Prod.snd =
      (Expr.watchPairs call env (sortedPairs pairs)).map Prod.snd := by
  rw [Expr.watchPairs_eq, Expr.watchPairs_eq, byText_pairs, List.map_map]
  rfl

lemma Expr.watch_cond (condition : Expr) (yes : List Stmt) (no : Option (List Stmt)) :
    (Expr.cond condition yes no).watch call env =
      (condition.watch call env).cond (condition.eval call env)
      (Stmt.watchAll call env yes) (Stmt.watchAll call env (no.getD [])) (Stmt.mentionsAll yes)
      (Stmt.mentionsAll (no.getD [])) := by
  cases no with
  | none => rfl
  | some no => rfl

end

/-- **What was watched is passed.** -/
theorem Emits.passes_storedTo {names : List String} {c : Site} {p : Expr → Bool} {part : Part}
    {d d' : Draft} {pos : Nat} {is : List Instr} {k k' : Slots} {σ : Store}
    (h : Emits part d pos is d') (hb : part.mentions.binds ⊆ names)
    (ho : part.every p Stmt.isPlain = true) (hw : part.watch c.call c.env k σ = some k') :
    (storedTo names).Passes c part k σ k' := by
  induction h generalizing k k' σ with
  | @ident n _ _ _ _ _ =>
      have hw : (if k.reads n then some k else none) = some k' := hw
      split_ifs at hw with hn
      cases hw
      exact .ident hn
  | @constant e _ _ _ literal =>
      cases e with
      | integer _ => cases hw; exact .integer
      | float _ => cases hw; exact .float
      | string _ => cases hw; exact .string
      | _ => cases literal
  | @immediate e _ _ _ literal =>
      cases e with
      | boolean _ => cases hw; exact .boolean
      | nil => cases hw; exact .nil
      | _ => cases literal
  | array _ ih => exact .array (ih hb (Bool.and_eq_true_iff.mp ho).2 hw)
  | @hash pairs _ _ _ _ _ ih =>
      have hw : Watch.sequence ((byText (Expr.watchPairs c.call c.env pairs)).map Prod.snd) k σ =
          some k' := hw
      rw [Expr.watchPairs_sorted] at hw
      exact .hash (ih (List.Subset.trans (Expr.mentionsPairs_sorted pairs).binds hb)
        (Expr.everyPair_sorted (Bool.and_eq_true_iff.mp ho).2) hw)
  -- a function is no part of what can be watched
  | function _ _ _ _ _ _ _ _ => cases hw
  | unary _ _ ih => exact .unary (ih hb (Bool.and_eq_true_iff.mp ho).2 hw)
  | @binary op left right code _ _ _ _ _ _ known _ _ ih ih' =>
      obtain ⟨⟨-, ho₁⟩, ho₂⟩ := (Bool.and_eq_true_iff.mp ho).imp_left Bool.and_eq_true_iff.mp
      obtain ⟨hb₁, hb₂⟩ := List.append_subset.mp hb
      simp only [Part.watch, Expr.watch, known] at hw
      obtain ⟨k₁, hw₁, hw₂⟩ := Watch.of_andThen hw
      exact .binary known (ih hb₁ ho₁ hw₁) fun v σ₁ hv => ih' hb₂ ho₂ (hw₂ v σ₁ hv)
  | swapped known _ _ ih ih' =>
      obtain ⟨⟨-, ho₁⟩, ho₂⟩ := (Bool.and_eq_true_iff.mp ho).imp_left Bool.and_eq_true_iff.mp
      obtain ⟨hb₁, hb₂⟩ := List.append_subset.mp hb
      simp only [Part.watch, Expr.watch, known] at hw
      obtain ⟨k₁, hw₁, hw₂⟩ := Watch.of_andThen hw
      exact .swapped known (ih hb₂ ho₂ hw₁) fun v σ₁ hv => ih' hb₁ ho₁ (hw₂ v σ₁ hv)
  | index _ _ ih ih' =>
      obtain ⟨⟨-, ho₁⟩, ho₂⟩ := (Bool.and_eq_true_iff.mp ho).imp_left Bool.and_eq_true_iff.mp
      obtain ⟨hb₁, hb₂⟩ := List.append_subset.mp hb
      obtain ⟨k₁, hw₁, hw₂⟩ := Watch.of_andThen hw
      exact .index (ih hb₁ ho₁ hw₁) fun v σ₁ hv => ih' hb₂ ho₂ (hw₂ v σ₁ hv)
  | cond _ _ _ ih ih' ih'' =>
      obtain ⟨ho₁, ho₂, ho₃⟩ := Expr.every_cond ho
      rw [Part.mentions, Expr.mentions_cond] at hb
      obtain ⟨hb₁₂, hb₃⟩ := List.append_subset.mp hb
      obtain ⟨hb₁, hb₂⟩ := List.append_subset.mp hb₁₂
      rw [Part.watch, Expr.watch_cond] at hw
      obtain ⟨k₁, hw₁, ⟨hholds, k₂, rfl, hw₂⟩ | ⟨hfails, hw₂⟩⟩ := Watch.of_cond hw
      · exact .condYes (ih hb₁ ho₁ hw₁) hholds (fun v σ₁ hv => ih' hb₂ ho₂ (hw₂ v σ₁ hv)) ⟨rfl, hb₃⟩
      · exact .condNo (ih hb₁ ho₁ hw₁) hfails ⟨rfl, hb₂⟩ fun v σ₁ hv => ih'' hb₃ ho₃ (hw₂ v σ₁ hv)
  | call _ _ ih ih' =>
      obtain ⟨⟨-, ho₁⟩, ho₂⟩ := (Bool.and_eq_true_iff.mp ho).imp_left Bool.and_eq_true_iff.mp
      obtain ⟨hb₁, hb₂⟩ := List.append_subset.mp hb
      obtain ⟨k₁, hw₁, hw₂⟩ := Watch.of_andThen hw
      exact .call (ih hb₁ ho₁ hw₁) fun v σ₁ hv => ih' hb₂ ho₂ (hw₂ v σ₁ hv)
  | noExprs =>
      cases hw
      exact .noExprs
  | exprs _ _ ih ih' =>
      obtain ⟨ho₁, ho₂⟩ := Bool.and_eq_true_iff.mp ho
      obtain ⟨hb₁, hb₂⟩ := List.append_subset.mp hb
      obtain ⟨k₁, hw₁, hw₂⟩ := Watch.of_andThen hw
      exact .exprs (ih hb₁ ho₁ hw₁) fun v σ₁ hv => ih' hb₂ ho₂ (hw₂ v σ₁ hv)
  | noPairs =>
      cases hw
      exact .noPairs
  | pairs _ _ _ ih ih' ih'' =>
      obtain ⟨⟨ho₁, ho₂⟩, ho₃⟩ := (Bool.and_eq_true_iff.mp ho).imp_left Bool.and_eq_true_iff.mp
      obtain ⟨hb₁₂, hb₃⟩ := List.append_subset.mp hb
      obtain ⟨hb₁, hb₂⟩ := List.append_subset.mp hb₁₂
      obtain ⟨k₂, hw₁₂, hw₃⟩ := Watch.of_andThen hw
      obtain ⟨k₁, hw₁, hw₂⟩ := Watch.of_andThen hw₁₂
      refine .pairs (ih hb₁ ho₁ hw₁) (fun v σ₁ hv => ih' hb₂ ho₂ (hw₂ v σ₁ hv))
        fun v σ₁ w σ₂ hv hv' => ?_
      refine ih'' hb₃ ho₃ (hw₃ (v, w) σ₂ ?_)
      simp only [Eval.run_bind, hv, hv']
      rfl
  | @define n e _ _ _ _ _ ih =>
      obtain ⟨k₁, hw₁, rfl⟩ := Option.map_eq_some_iff.mp hw
      obtain ⟨hn, hb₁⟩ := List.append_subset.mp hb
      exact .binding rfl ⟨rfl, hn⟩ (ih hb₁ ho hw₁) ⟨n, e, rfl, rfl⟩
  | @assign n e _ _ _ _ _ ih =>
      obtain ⟨k₁, hw₁, rfl⟩ := Option.map_eq_some_iff.mp hw
      have hb : [n] ++ e.mentions.binds ⊆ names := hb
      obtain ⟨hn, hb₁⟩ := List.append_subset.mp hb
      exact .binding rfl ⟨rfl, hn⟩ (ih hb₁ (Bool.and_eq_true_iff.mp ho).2 hw₁) ⟨n, e, rfl, rfl⟩
  | setIndex _ _ _ ih ih' ih'' =>
      obtain ⟨hleft, ho₃⟩ := Bool.and_eq_true_iff.mp ho
      obtain ⟨⟨-, ho₁⟩, ho₂⟩ :=
        (Bool.and_eq_true_iff.mp (Bool.and_eq_true_iff.mp hleft).2).imp_left Bool.and_eq_true_iff.mp
      obtain ⟨hb₁₂, hb₃⟩ := List.append_subset.mp hb
      obtain ⟨hb₁, hb₂⟩ := List.append_subset.mp hb₁₂
      obtain ⟨k₂, hw₁₂, hw₃⟩ := Watch.of_andThen hw
      obtain ⟨k₁, hw₁, hw₂⟩ := Watch.of_andThen hw₁₂
      refine .setIndex (ih hb₁ ho₁ hw₁) (fun v σ₁ hv => ih' hb₂ ho₂ (hw₂ v σ₁ hv))
        fun v σ₁ w σ₂ hv hv' => ?_
      refine ih'' hb₃ ho₃ (hw₃ w σ₂ ?_)
      simp only [Eval.run_bind, hv, hv']
  | ret _ ih => exact .ret (ih hb ho hw)
  | expr _ ih => exact .expr (ih hb ho hw)
  | block _ _ => cases hw
  | noStmts =>
      cases hw
      exact .noStmts
  | stmts _ _ ih ih' =>
      obtain ⟨ho₁, ho₂⟩ := Bool.and_eq_true_iff.mp ho
      obtain ⟨hb₁, hb₂⟩ := List.append_subset.mp hb
      obtain ⟨k₁, hw₁, hw₂⟩ := Watch.of_andThen hw
      exact .stmts (ih hb₁ ho₁ hw₁) fun v σ₁ hv => ih' hb₂ ho₂ (hw₂ v σ₁ hv)
  | branch _ ih =>
      exact .branch (fun s hs => Stmt.of_every (Stmt.everyOf_iff.mp ho s hs)) (ih hb ho hw)

/-! ## Programs -/

namespace Program

/-- Before the first statement the engines agree, and no name has a slot. -/
lemma stored_joint (p : Program) (limits : Limits) :
    (p.joint limits).Stored (Stmt.mentionsAll p).binds Compiler.fresh.symbols .start := by
  have hnone (n : String) : ¬ Compiler.fresh.symbols.Owns n := by
    rintro ⟨x, hx, ho⟩
    rw [(find?_fresh hx).1] at ho
    cases ho
  refine ⟨p.core_joint limits, fun _ => rfl, rfl, rfl, rfl, fun {n} => iff_of_false nofun (hnone n),
    fun {n} hn => absurd hn (hnone n), fun hx _ => find?_fresh hx, fun {n v} hv => ?_, nofun⟩
  cases (boundTo_start limits 0 n).symm.trans hv

/-- Whether each name that is read in a run of the program has no slot by then, or one to which a
value was stored when the name was bound last. -/
def readsStored (p : Program) (limits : Limits) : Bool :=
  (Stmt.watchAll (p.site limits).call 0 p .start
    (Evaluator.ofStore .empty limits.maxFrames).store).isSome

/-- Whether there are neither function literals nor blocks in the program. -/
def isFunctionFree (p : Program) : Bool :=
  Stmt.everyOf Expr.isNoFunction Stmt.isPlain p

/-- **The engines agree on programs that read what was stored.**  If such a program can be compiled
and the stack does not overflow, the machine comes to the very value or fault that the evaluator
comes to. -/
theorem outcomes_equal {p : Program} {limits : Limits} (hreads : p.readsStored limits = true)
    (hfree : p.isFunctionFree = true) (hlast : p.endsInExpr = true) (hl : limits.areFeasible = true)
    (hok : (Compiler.fresh.compile p).1 = .ok ())
    (hstack : ∀ n m, (p.machine limits).run n ≠ .fault .stackOverflow m) :
    ∃ n, ((p.machine limits).run n).Equals (p.evaluate limits) := by
  obtain ⟨k, hk⟩ := Option.isSome_iff_exists.mp hreads
  have htracks := Site.tracks_storedTo (c := p.site limits) rfl (Stmt.mentionsAll p).binds
  obtain ⟨n, hn⟩ := htracks.program hl hok hlast hstack (p.site limits).callsAgree
    (fun hem => hem.passes_storedTo (fun _ hn => hn) hfree hk) (p.stored_joint limits)
  exact ⟨n, hn.equals (functions_evaluate hfree limits)⟩

/-- Names that are bound again and again: by a `let` on a branch that is taken, by an assignment
that reads the name itself, by a `let` behind one on a branch that is not taken. -/
def rebinding : Program :=
  [.define "a" (.integer 1),
    .define "b" (.array [.ident "a", .integer 2]),
    .expr (.cond (.binary "<" (.ident "a") (.integer 2))
      [.define "a" (.binary "+" (.index (.ident "b") (.integer 0)) (.integer 10)),
        .assign (.index (.ident "b") (.integer 1)) (.ident "a")]
      (some [.define "c" (.integer 5), .assign (.ident "b") (.ident "c")])),
    .assign (.ident "a") (.binary "*" (.ident "a") (.integer 2)),
    .define "c" (.hash [(.string "x", .ident "a")]),
    .expr (.cond (.boolean false) [.assign (.ident "a") (.integer 3), .ret (.ident "c")] none),
    .expr (.call (.ident "puts") [.index (.ident "c") (.string "x"), .ident "b"]),
    .expr (.binary "-" (.ident "a") (.call (.ident "len") [.ident "b"]))]

set_option maxRecDepth 100000 in
theorem rebinding_equal :
    rebinding.readsStored ⟨64, 16, 1000⟩ = true ∧ rebinding.isFunctionFree = true ∧
      rebinding.endsInExpr = true ∧ (Compiler.fresh.compile rebinding).1 = .ok () ∧
      (∀ n m, (rebinding.machine ⟨64, 16, 1000⟩).run n ≠ .fault .stackOverflow m) ∧
      ∃ n, ((rebinding.machine ⟨64, 16, 1000⟩).run n).Equals
        (rebinding.evaluate ⟨64, 16, 1000⟩) := by
  have hreads : rebinding.readsStored ⟨64, 16, 1000⟩ = true := by decide +kernel
  have hfree : rebinding.isFunctionFree = true := by decide +kernel
  have hlast : rebinding.endsInExpr = true := by decide +kernel
  have hok : (Compiler.fresh.compile rebinding).1 = .ok () := by decide +kernel
  have hdone : ((rebinding.machine ⟨64, 16, 1000⟩).run 1000).value? = some (.integer 20) := by
    decide +kernel
  have hstack (n : Nat) (m : Machine) : (rebinding.machine ⟨64, 16, 1000⟩).run n ≠
      .fault .stackOverflow m :=
    Machine.run_ne_fault hdone n
  exact ⟨hreads, hfree, hlast, hok, hstack,
    outcomes_equal hreads hfree hlast (by decide) hok hstack⟩

/-- Whether the program is one of those that could be expected to have equal outcomes, while the
machine comes to the one value and the evaluator to the other. -/
def differs (limits : Limits) (v w : Value) (p : Program) : Bool :=
  p.isFunctionFree && p.endsInExpr && decide ((Compiler.fresh.compile p).1 = .ok ()) &&
    decide (((p.machine limits).run limits.steps).value? = some v) &&
      decide ((p.evaluate limits).1 = .ok w)

set_option maxRecDepth 100000 in
/-- Without functions alone the outcomes need not be equal: a `let` that reads the name which it
binds again finds nothing in the new slot. -/
theorem selfReading_differs :
    ∃ p, ofText "let a = 1; let a = a; a" = .ok p ∧ p.isFunctionFree = true ∧
      p.endsInExpr = true ∧ (Compiler.fresh.compile p).1 = .ok () ∧
      (∀ n m, (p.machine ⟨64, 16, 1000⟩).run n ≠ .fault .stackOverflow m) ∧
      (p.evaluate ⟨64, 16, 1000⟩).1 = .ok (.integer 1) ∧
      ∀ n, ¬ ((p.machine ⟨64, 16, 1000⟩).run n).Equals (p.evaluate ⟨64, 16, 1000⟩) := by
  have hdiffers : (ofText "let a = 1; let a = a; a").toOption.any
      (differs ⟨64, 16, 1000⟩ .nil (.integer 1)) = true := by
    decide +kernel
  cases hp : ofText "let a = 1; let a = a; a" with
  | error e =>
      rw [hp] at hdiffers
      cases hdiffers
  | ok p =>
      rw [hp] at hdiffers
      have hdiffers : p.differs ⟨64, 16, 1000⟩ .nil (.integer 1) = true := hdiffers
      simp only [differs, Bool.and_eq_true, decide_eq_true_eq] at hdiffers
      obtain ⟨⟨⟨⟨hfree, hlast⟩, hok⟩, hdone⟩, heval⟩ := hdiffers
      refine ⟨p, rfl, hfree, hlast, hok, fun n m => Machine.run_ne_fault hdone n, heval,
        fun n hequals => ?_⟩
      have hn := hequals.value?_eq heval
      rcases Machine.run_of_value? hdone n with ⟨m, hnext⟩ | hnil
      · rw [hnext] at hn
        cases hn
      · cases hn.symm.trans hnil

end Program

end Marmoset
