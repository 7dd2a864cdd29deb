import Marmoset.Proofs.Emission

/-!
# The compiler follows the derivations

What the compiler writes for a tree is derivable (`Emits`), behind whatever its buffer held before;
where it stops with an error, it has compiled some parts and has some functions open (`Opens`).

`Compile.Ends` speaks of both outcomes of a step of the compiler.  There is one lemma for each kind
of step, and `Compile.Ends.bind` puts them together.

* **`Stmt.lays_compileAll`** — the two outcomes for every list of statements.
-/

namespace Marmoset

/-- Every open buffer is the writing of instructions. -/
def Compiler.Tracked (c : Compiler) : Prop :=
  ∀ b ∈ c.buffer :: c.outer, ∃ is, b.Tracks is

/-- The step ends well with `Q`, or stops with an error where `E` holds of the names and
constants. -/
def Compile.Ends {α : Type} (x : Compile α) (c : Compiler) (Q : α → Compiler → Prop)
    (E : Draft → Prop) : Prop :=
  match x c with
  | .ok a c' => Q a c'
  | .error _ c' => E ⟨c'.symbols, c'.constants⟩ ∧ c'.Tracked

namespace Compile.Ends

variable {α β : Type} {c : Compiler} {E E' : Draft → Prop}

lemma pure {Q : α → Compiler → Prop} {a : α} (h : Q a c) : Ends (Pure.pure a) c Q E :=
  h

/-- Steps one after the other: where the first one stops, the whole stops. -/
lemma bind {x : Compile α} {f : α → Compile β} {P : α → Compiler → Prop} {Q : β → Compiler → Prop}
    (hx : Ends x c P E) (hf : ∀ a c', P a c' → Ends (f a) c' Q E) : Ends (x >>= f) c Q E := by
  unfold Ends at hx ⊢
  show match EStateM.bind x f c with
    | .ok a c' => Q a c'
    | .error _ c' => E ⟨c'.symbols, c'.constants⟩ ∧ c'.Tracked
  unfold EStateM.bind
  cases hc : x c with
  | ok a c' =>
      rw [hc] at hx
      exact hf a c' hx
  | error e c' =>
      rw [hc] at hx
      exact hx

/-- Less may be asked of either outcome. -/
lemma mono {x : Compile α} {P Q : α → Compiler → Prop} (hx : Ends x c P E)
    (hq : ∀ a c', P a c' → Q a c') (he : ∀ d, E d → E' d) : Ends x c Q E' := by
  unfold Ends at hx ⊢
  cases hc : x c with
  | ok a c' =>
      rw [hc] at hx
      exact hq a c' hx
  | error e c' =>
      rw [hc] at hx
      exact ⟨he _ hx.1, hx.2⟩

lemma of_ok {x : Compile α} {Q : α → Compiler → Prop} {a : α} {c' : Compiler} (h : x c = .ok a c')
    (hq : Q a c') : Ends x c Q E := by
  unfold Ends
  rw [h]
  exact hq

lemma of_error {x : Compile α} {Q : α → Compiler → Prop} {e : CompileError} {c' : Compiler}
    (h : x c = .error e c') (he : E ⟨c'.symbols, c'.constants⟩ ∧ c'.Tracked) : Ends x c Q E := by
  unfold Ends
  rw [h]
  exact he

/-- Only the outcome counts, also where the step starts elsewhere. -/
lemma of_eq {x y : Compile α} {Q : α → Compiler → Prop} {c₁ : Compiler} (h : x c = y c₁)
    (hy : Ends y c₁ Q E) : Ends x c Q E := by
  unfold Ends at hy ⊢
  rwa [h]

/-- An outcome comes from a run. -/
lemma withRun {x : Compile α} {Q : α → Compiler → Prop} (hx : Ends x c Q E) :
    Ends x c (fun a c' => x c = .ok a c' ∧ Q a c') E := by
  unfold Ends at hx ⊢
  cases hc : x c with
  | ok a c' =>
      rw [hc] at hx
      exact ⟨rfl, hx⟩
  | error e c' =>
      rw [hc] at hx
      exact hx

end Compile.Ends

open Compile (Ends)

namespace Compiler

/-- The compiler has written `is` in the current function, knows the names and constants of `d`, and
has the buffers `o` open around. -/
structure At (c : Compiler) (is : List Instr) (d : Draft) (o : List Buffer) : Prop where
  tracks : c.buffer.Tracks is
  symbols : c.symbols = d.symbols
  constants : c.constants = d.constants
  outer : c.outer = o
  around : ∀ b ∈ o, ∃ is, b.Tracks is

variable {c : Compiler} {is : List Instr} {d : Draft} {o : List Buffer} {E : Draft → Prop}

/-! ## Single steps -/

/-- Where no operand is reported, all of them fit into their widths. -/
lemma fits_of_overflow? {op : Opcode} {operands : List Nat} (h : overflow? op operands = none)
    (hl : operands.length = op.widths.length) : Instr.Fits ⟨op, operands⟩ := by
  simp only [overflow?, Option.map_eq_none_iff, List.find?_eq_none, Width.fits, Bool.not_eq_true',
    decide_eq_false_iff_not, not_not] at h
  exact List.forall₂_iff_zip.mpr ⟨hl.symm, fun hmem => h _ hmem⟩

namespace At

/-- An error may be raised here: the names and constants are those of the draft, and every buffer is
tracked. -/
lemma of_draft (hc : c.At is d o) (he : E d) : E ⟨c.symbols, c.constants⟩ ∧ c.Tracked := by
  refine ⟨by rwa [hc.symbols, hc.constants], fun b hb => ?_⟩
  rw [hc.outer] at hb
  rcases List.mem_cons.mp hb with rfl | hb
  · exact ⟨is, hc.tracks⟩
  · exact hc.around b hb

/-- An instruction that is written stands behind all others, or its operands do not fit. -/
lemma emit (hc : c.At is d o) {op : Opcode} {operands : List Nat}
    (hl : operands.length = op.widths.length) (he : E d) :
    Ends (Compiler.emit op operands) c
      (fun pos c' => pos = extent is ∧ c'.At (is ++ [⟨op, operands⟩]) d o) E := by
  unfold Compile.Ends Compiler.emit
  cases ho : overflow? op operands with
  | some n => exact hc.of_draft he
  | none =>
      have hfits := fits_of_overflow? ho hl
      exact ⟨hc.tracks.size, hc.tracks.emit hfits, hc.symbols, hc.constants, hc.outer, hc.around⟩

/-- The same where the place is not asked for. -/
lemma emit_ (hc : c.At is d o) {op : Opcode} {operands : List Nat}
    (hl : operands.length = op.widths.length) (he : E d) :
    Ends (Compiler.emit_ op operands) c (fun _ c' => c'.At (is ++ [⟨op, operands⟩]) d o) E :=
  (hc.emit hl he).bind fun _ _ h => .pure h.2

/-- The jump written before `ys` goes to the end of the code. -/
lemma land {op : Opcode} {old : Nat} {xs ys : List Instr} (hc : c.At (xs ++ ⟨op, [old]⟩ :: ys) d o)
    (he : E d) :
    Ends (Compiler.land (extent xs) op) c
      (fun _ c' => c'.At (xs ++ ⟨op, [extent (xs ++ ⟨op, [old]⟩ :: ys)]⟩ :: ys) d o) E := by
  have hold : Instr.Fits ⟨op, [old]⟩ := hc.tracks.fits _ (by simp)
  unfold Compile.Ends Compiler.land
  cases ho : overflow? op [c.buffer.code.size] with
  | some n => simpa only [ho] using hc.of_draft he
  | none =>
      rw [hc.tracks.size] at ho ⊢
      simp only [ho]
      have hfits := fits_of_overflow? ho hold.length_eq.symm
      exact ⟨hc.tracks.patch hfits, hc.symbols, hc.constants, hc.outer, hc.around⟩

/-- A constant is added behind the others. -/
lemma addConstant (hc : c.At is d o) (k : Constant) :
    Ends (Compiler.addConstant k) c
      (fun index c' => index = d.constants.size ∧
        c'.At is ⟨d.symbols, d.constants.push k⟩ o) E := by
  refine .of_ok rfl ⟨by rw [hc.constants], hc.tracks, hc.symbols, ?_, hc.outer, hc.around⟩
  simp only [hc.constants]

/-- A definition changes the names and writes nothing. -/
lemma define (hc : c.At is d o) (name : String) :
    Ends (Compiler.define name) c
      (fun x c' => x = (d.symbols.define name).1 ∧
        c'.At is ⟨(d.symbols.define name).2, d.constants⟩ o) E := by
  rw [← hc.symbols]
  exact .of_ok rfl ⟨rfl, hc.tracks, rfl, hc.constants, hc.outer, hc.around⟩

/-- So does looking for a name to assign to. -/
lemma assignable (hc : c.At is d o) (name : String) :
    Ends (Compiler.assignable name) c
      (fun x c' => x = (d.symbols.assignable name).1 ∧
        c'.At is ⟨(d.symbols.assignable name).2, d.constants⟩ o) E := by
  rcases d.symbols.assignable_cases name with ⟨x, hx, ho, heq⟩ | ⟨hx, heq⟩ <;> rw [heq]
  · have hrun : Compiler.assignable name c = .ok x c := by
      simp only [Compiler.assignable, SymbolTable.findHere?, hc.symbols, hx, ho, if_true]
    exact .of_ok hrun ⟨rfl, hc⟩
  · refine .of_eq ?_ (hc.define name)
    simp only [Compiler.assignable, SymbolTable.findHere?, hc.symbols]
    cases hf : d.symbols.current.find? name with
    | none => rfl
    | some x => simp only [hx x hf, Bool.false_eq_true, if_false]

/-- Looking up a name captures on the way, or stops because the name is not known. -/
lemma resolve (hc : c.At is d o) (name : String) (he : E d) :
    Ends (Compiler.resolve name) c
      (fun x c' => ∃ t, d.symbols.resolve name = some (x, t) ∧ c'.At is ⟨t, d.constants⟩ o) E := by
  unfold Compile.Ends Compiler.resolve
  rw [hc.symbols]
  cases hr : d.symbols.resolve name with
  | none => exact hc.of_draft he
  | some r => exact ⟨r.2, rfl, hc.tracks, rfl, hc.constants, hc.outer, hc.around⟩

/-- What a symbol stands for is loaded by one instruction. -/
lemma load (hc : c.At is d o) (x : Symbol) (he : E d) :
    Ends (Compiler.load x) c (fun _ c' => c'.At (is ++ [x.loadInstr]) d o) E := by
  unfold Compiler.load Symbol.loadInstr
  cases x.kind <;> exact hc.emit_ rfl he

/-- And stored to by one. -/
lemma store (hc : c.At is d o) (x : Symbol) (he : E d) :
    Ends (Compiler.store x) c (fun _ c' => c'.At (is ++ [x.storeInstr]) d o) E := by
  unfold Compiler.store Symbol.storeInstr
  cases x.kind <;> exact hc.emit_ rfl he

/-- Captured values are loaded in the order in which they were captured. -/
lemma loadAll (hc : c.At is d o) (xs : List Symbol) (he : E d) :
    Ends (Compiler.loadAll xs) c (fun _ c' => c'.At (is ++ xs.map Symbol.loadInstr) d o) E := by
  induction xs generalizing c is with
  | nil => exact .pure (by simpa using hc)
  | cons x xs ih =>
      refine (hc.load x he).bind fun _ c' hc' => (ih hc').mono (fun _ _ h => ?_) (fun _ h => h)
      simpa using h

/-- The end of a branch. -/
lemma endBranch {ss : List Stmt} {base : List Instr} (hc : c.At (base ++ is) d o)
    (hb : lastOp base ≠ some .pop) (hs : Part.EndsIn (.stmts ss) is) (he : E d) :
    Ends Compiler.endBranch c (fun _ c' => c'.At (base ++ asBranch is) d o) E := by
  rcases asBranch_cases hs with ⟨init, rfl, hne, hlast, heq⟩ | ⟨hp, heq⟩
  · rw [← List.append_assoc] at hc
    have hpop : c.buffer.endsWith .pop = true :=
      (hc.tracks.endsWith .pop).mpr (lastOp_append_singleton _ _)
    refine .of_ok (if_pos hpop) ⟨?_, hc.symbols, hc.constants, hc.outer, hc.around⟩
    rw [heq]
    exact hc.tracks.dropLast (by rwa [lastOp_append _ hne])
  · have hpop : ¬ c.buffer.endsWith .pop = true := by
      rw [hc.tracks.endsWith .pop]
      rcases eq_or_ne is [] with rfl | hne
      · rwa [List.append_nil]
      · rwa [lastOp_append _ hne]
    rw [heq, ← List.append_assoc]
    exact .of_eq (if_neg hpop) (hc.emit_ rfl he)

/-- The end of a function. -/
lemma endFunction (hc : c.At is d o) (he : E d) :
    Ends Compiler.endFunction c (fun _ c' => c'.At (asBody is) d o) E := by
  unfold asBody
  by_cases hp : lastOp is = some .pop
  · have hpop : c.buffer.endsWith .pop = true := (hc.tracks.endsWith .pop).mpr hp
    obtain ⟨init, rfl⟩ := exists_of_lastOp_pop hc.tracks.fits hp
    have hret := hc.tracks.returnLast
    have hends : c.buffer.returnLast.endsWith .returnValue = true :=
      (hret.endsWith .returnValue).mpr (by simp)
    rw [if_pos hp, List.dropLast_concat]
    have hrun : Compiler.endFunction c = .ok () { c with buffer := c.buffer.returnLast } := by
      simp only [Compiler.endFunction, hpop, if_true, hends]
    exact .of_ok hrun ⟨hret, hc.symbols, hc.constants, hc.outer, hc.around⟩
  · have hpop : c.buffer.endsWith .pop = false := by
      rwa [← Bool.not_eq_true, hc.tracks.endsWith .pop]
    rw [if_neg hp]
    by_cases hr : lastOp is = some .returnValue
    · have hends : c.buffer.endsWith .returnValue = true := (hc.tracks.endsWith .returnValue).mpr hr
      rw [if_pos hr]
      have hrun : Compiler.endFunction c = .ok () c := by
        simp only [Compiler.endFunction, hpop, Bool.false_eq_true, if_false, hends, if_true]
      exact .of_ok hrun hc
    · have hends : c.buffer.endsWith .returnValue = false := by
        rwa [← Bool.not_eq_true, hc.tracks.endsWith .returnValue]
      rw [if_neg hr]
      have hrun : Compiler.endFunction c = Compiler.emit_ .returnNil [] c := by
        simp only [Compiler.endFunction, hpop, Bool.false_eq_true, if_false, hends]
      exact .of_eq hrun (hc.emit_ rfl he)

/-- The start of a function. -/
lemma enterFunction (hc : c.At is d o) (name : Option String) (params : List String) :
    Ends (Compiler.enterFunction name params) c
      (fun _ c' => c'.At [] ⟨d.symbols.entry name params, d.constants⟩ (c.buffer :: o)) E := by
  rw [← hc.symbols]
  refine .of_ok rfl ⟨.empty, rfl, hc.constants, congrArg _ hc.outer, fun b hb => ?_⟩
  rcases List.mem_cons.mp hb with rfl | hb
  · exact ⟨is, hc.tracks⟩
  · exact hc.around b hb

/-- The end of a function, when the one around it is known. -/
lemma leaveFunction {b : Buffer} {base : List Instr} {summary : ScopeSummary} {t : SymbolTable}
    (hc : c.At is d (b :: o)) (hb : b.Tracks base) (hl : d.symbols.leave = some (summary, t)) :
    Ends Compiler.leaveFunction c
      (fun r c' => r.1.toList = bytesOf is ∧ r.2 = summary ∧ c'.At base ⟨t, d.constants⟩ o) E := by
  have hrun : Compiler.leaveFunction c =
      .ok (c.buffer.code, summary) { c with symbols := t, buffer := b, outer := o } := by
    simp only [Compiler.leaveFunction, hc.symbols, hl, Option.getD_some, hc.outer]
  exact .of_ok hrun
    ⟨hc.tracks.code, rfl, hb, rfl, hc.constants, rfl,
      fun b' hb' => hc.around b' (List.mem_cons_of_mem _ hb')⟩

end At

end Compiler

/-! ## Trees -/

/-- The step writes the code of a part. -/
def Lays (part : Part) (x : Compile Unit) : Prop :=
  ∀ ⦃c : Compiler⦄ ⦃base : List Instr⦄ ⦃d : Draft⦄ ⦃o : List Buffer⦄, c.At base d o →
    Ends x c (fun _ c' => ∃ is d', Emits part d (extent base) is d' ∧
      c'.At (base ++ is) d' o) (Opens d)

/-- The step writes the code of a branch, where it does not stand behind a `pop`. -/
def LaysBranch (ss : List Stmt) (x : Compile Unit) : Prop :=
  ∀ ⦃c : Compiler⦄ ⦃base : List Instr⦄ ⦃d : Draft⦄ ⦃o : List Buffer⦄, c.At base d o →
    lastOp base ≠ some .pop →
    Ends x c (fun _ c' => ∃ is d', Emits (.branch ss) d (extent base) is d' ∧
      c'.At (base ++ is) d' o) (Opens d)

section

variable {α : Type} {c : Compiler} {base : List Instr} {d : Draft} {o : List Buffer}

/-- What comes after a part starts where the part ended. -/
lemma Lays.andThen {part : Part} {x : Compile Unit} {f : Unit → Compile α} {Q : α → Compiler → Prop}
    (hx : Lays part x) (hc : c.At base d o)
    (hf : ∀ is d' c', Emits part d (extent base) is d' → c'.At (base ++ is) d' o →
      Ends (f ()) c' Q (Opens d')) :
    Ends (x >>= f) c Q (Opens d) := by
  refine (hx hc).bind ?_
  rintro ⟨⟩ c' ⟨is, d', hem, hc'⟩
  exact (hf is d' c' hem hc').mono (fun _ _ h => h) (fun _ h => .emitted hem h)

/-- What comes after a branch starts where the branch ended. -/
lemma LaysBranch.andThen {ss : List Stmt} {x : Compile Unit} {f : Unit → Compile α}
    {Q : α → Compiler → Prop} (hx : LaysBranch ss x) (hc : c.At base d o)
    (hb : lastOp base ≠ some .pop)
    (hf : ∀ is d' c', Emits (.branch ss) d (extent base) is d' → c'.At (base ++ is) d' o →
      Ends (f ()) c' Q (Opens d')) :
    Ends (x >>= f) c Q (Opens d) := by
  refine (hx hc hb).bind ?_
  rintro ⟨⟩ c' ⟨is, d', hem, hc'⟩
  exact (hf is d' c' hem hc').mono (fun _ _ h => h) (fun _ h => .emitted hem h)

/-- The last instruction of a part. -/
lemma Compiler.At.emitLast {part : Part} {d₀ : Draft} {xs : List Instr} {pos : Nat} {op : Opcode}
    {operands : List Nat} (hc : c.At (base ++ xs) d o) (hl : operands.length = op.widths.length)
    (hem : Emits part d₀ pos (xs ++ [⟨op, operands⟩]) d) :
    Ends (Compiler.emit_ op operands) c (fun _ c' => ∃ is d', Emits part d₀ pos is d' ∧
      c'.At (base ++ is) d' o)
      (Opens d) := by
  refine (hc.emit_ hl .here).mono (fun _ c' h => ⟨_, _, hem, ?_⟩) (fun _ h => h)
  rwa [← List.append_assoc]

-- The equations of the compiler, made here once and not in each of the lemmas below.
alias Expr.compile_ident := Expr.compile.eq_1

alias Stmt.compile_define := Stmt.compile.eq_1

namespace Lays

/-- A name is one load. -/
lemma ident (name : String) : Lays (.expr (.ident name)) (Expr.compile (.ident name)) := by
  intro c base d o hc
  rw [Expr.compile_ident]
  refine (hc.resolve name .here).bind ?_
  rintro x c' ⟨t, ht, hc'⟩
  have hem : Emits (.expr (.ident name)) d (extent base) [x.loadInstr] _ := .ident ht
  exact (hc'.load x (.emitted hem .here)).mono (fun _ _ h => ⟨_, _, hem, h⟩) (fun _ h => h)

/-- A literal of the pool is one load of a new constant. -/
lemma constant {e : Expr} {k : Constant} (h : e.constant? = some k) :
    Lays (.expr e) (Compiler.literal k) := by
  intro c base d o hc
  refine (hc.addConstant k).bind ?_
  rintro index c' ⟨rfl, hc'⟩
  have hem : Emits (.expr e) d (extent base) ([] ++ [⟨.constant, [d.constants.size]⟩]) _ :=
    .constant h
  rw [← List.append_nil base] at hc'
  exact (hc'.emitLast rfl hem).mono (fun _ _ h => h) (fun _ h => .emitted hem h)

/-- Truth values and nil have instructions of their own. -/
lemma immediate {e : Expr} {op : Opcode} (h : e.immediate? = some op) (hw : op.widths = []) :
    Lays (.expr e) (Compiler.emit_ op []) := by
  intro c base d o hc
  rw [← List.append_nil base] at hc
  exact hc.emitLast (by simp [hw]) (.immediate h)

/-- Expressions are compiled one after the other. -/
lemma exprs {es : List Expr} (h : ∀ e ∈ es, Lays (.expr e) e.compile) :
    Lays (.exprs es) (Expr.compileAll es) := by
  induction es with
  | nil =>
      intro c base d o hc
      rw [Expr.compileAll]
      exact .pure ⟨[], d, .noExprs, by rwa [List.append_nil]⟩
  | cons e es ih =>
      intro c base d o hc
      rw [Expr.compileAll]
      refine (h e (by simp)).andThen hc fun is d₁ c₁ hem hc₁ => ?_
      refine (ih (fun e' he' => h e' (List.mem_cons_of_mem _ he')) hc₁).mono ?_ (fun _ h => h)
      rintro _ c' ⟨is', d', hem', hc'⟩
      rw [extent_append] at hem'
      exact ⟨_, _, .exprs hem hem', by rwa [← List.append_assoc]⟩

/-- Statements are laid down one behind the other. -/
lemma stmts {ss : List Stmt} (h : ∀ s ∈ ss, Lays (.stmt s) s.compile) :
    Lays (.stmts ss) (Stmt.compileAll ss) := by
  induction ss with
  | nil =>
      intro c base d o hc
      rw [Stmt.compileAll]
      exact .pure ⟨[], d, .noStmts, by rwa [List.append_nil]⟩
  | cons s ss ih =>
      intro c base d o hc
      rw [Stmt.compileAll]
      refine (h s (by simp)).andThen hc fun is d₁ c₁ hem hc₁ => ?_
      refine (ih (fun s' hs' => h s' (List.mem_cons_of_mem _ hs')) hc₁).mono ?_ (fun _ h => h)
      rintro _ c' ⟨is', d', hem', hc'⟩
      rw [extent_append] at hem'
      exact ⟨_, _, .stmts hem hem', by rwa [← List.append_assoc]⟩

/-- Steps that compile the pairs, with whatever texts. -/
lemma pairs {ps : List (Expr × Expr)}
    (h : ∀ p ∈ ps, Lays (.expr p.1) p.1.compile ∧ Lays (.expr p.2) p.2.compile)
    {steps : List (String × Compile Unit)}
    (hs : steps.map Prod.snd = ps.map fun p => do p.1.compile; p.2.compile) :
    Lays (.pairs ps) (Compiler.sequence steps) := by
  induction ps generalizing steps with
  | nil =>
      intro c base d o hc
      rw [List.map_nil, List.map_eq_nil_iff] at hs
      rw [hs, Compiler.sequence]
      exact .pure ⟨[], d, .noPairs, by rwa [List.append_nil]⟩
  | cons p ps ih =>
      intro c base d o hc
      obtain ⟨⟨text, step⟩, rest, rfl, rfl, hrest⟩ := List.map_eq_cons_iff.mp hs
      have ⟨hk, hv⟩ := h p (by simp)
      rw [Compiler.sequence, bind_assoc]
      refine hk.andThen hc fun is d₁ c₁ hem hc₁ => hv.andThen hc₁ fun is' d₂ c₂ hem' hc₂ => ?_
      refine (ih (fun q hq => h q (List.mem_cons_of_mem _ hq)) hrest hc₂).mono ?_ (fun _ h => h)
      rintro _ c' ⟨is'', d', hem'', hc'⟩
      simp only [extent_append] at hem' hem''
      refine ⟨is ++ is' ++ is'', d', .pairs hem hem' hem'', ?_⟩
      rwa [← List.append_assoc, ← List.append_assoc]

/-- An array is its items and an instruction that collects them. -/
lemma array {items : List Expr} (h : ∀ e ∈ items, Lays (.expr e) e.compile) :
    Lays (.expr (.array items)) (Expr.compile (.array items)) := by
  intro c base d o hc
  rw [Expr.compile]
  exact (exprs h).andThen hc fun is d' c' hem hc' => hc'.emitLast rfl (.array hem)

/-- A hash is its pairs in the order of their texts and an instruction that collects them. -/
lemma hash {ps : List (Expr × Expr)}
    (h : ∀ p ∈ ps, Lays (.expr p.1) p.1.compile ∧ Lays (.expr p.2) p.2.compile) :
    Lays (.expr (.hash ps)) (Expr.compile (.hash ps)) := by
  intro c base d o hc
  rw [Expr.compile, compilePairs_eq]
  have hsorted := pairs (fun p hp => h p (mem_sortedPairs.mp hp)) (byText_pairs _ ps)
  exact hsorted.andThen hc fun is d' c' hem hc' => hc'.emitLast rfl (.hash hem)

/-- A prefix operator is its operand and one instruction, or it is not known. -/
lemma unary (op : String) {right : Expr} (h : Lays (.expr right) right.compile) :
    Lays (.expr (.unary op right)) (Expr.compile (.unary op right)) := by
  intro c base d o hc
  rw [Expr.compile]
  refine h.andThen hc fun is d' c' hem hc' => ?_
  cases hop : Operator.unary? op with
  | none => exact .of_error rfl (hc'.of_draft .here)
  | some code =>
      have hw := Opcode.widths_of_isUnary (Operator.isUnary_of_unary? hop)
      exact hc'.emitLast (by simp [hw]) (.unary hop hem)

/-- An operator between operands is these two and one instruction; a comparison to the left has them
the other way round. -/
lemma binary (op : String) {left right : Expr} (hl : Lays (.expr left) left.compile)
    (hr : Lays (.expr right) right.compile) :
    Lays (.expr (.binary op left right)) (Expr.compile (.binary op left right)) := by
  intro c base d o hc
  rw [Expr.compile]
  cases hop : Operator.binary? op with
  | none => exact .of_error rfl (hc.of_draft .here)
  | some code =>
      obtain ⟨code, swap⟩ := code
      have hw := Opcode.widths_of_isBinary (Operator.isBinary_of_binary? hop)
      cases swap with
      | false =>
          refine hl.andThen hc fun is d₁ c₁ hem hc₁ => hr.andThen hc₁ fun is' d' c' hem' hc' => ?_
          rw [extent_append] at hem'
          rw [List.append_assoc] at hc'
          exact hc'.emitLast (by simp [hw]) (.binary hop hem hem')
      | true =>
          refine hr.andThen hc fun is d₁ c₁ hem hc₁ => hl.andThen hc₁ fun is' d' c' hem' hc' => ?_
          rw [extent_append] at hem'
          rw [List.append_assoc] at hc'
          exact hc'.emitLast (by simp [hw]) (.swapped hop hem hem')

/-- An index is a container, a key and one instruction. -/
lemma index {left index : Expr} (hl : Lays (.expr left) left.compile)
    (hi : Lays (.expr index) index.compile) :
    Lays (.expr (.index left index)) (Expr.compile (.index left index)) := by
  intro c base d o hc
  rw [Expr.compile]
  refine hl.andThen hc fun is d₁ c₁ hem hc₁ => hi.andThen hc₁ fun is' d' c' hem' hc' => ?_
  rw [extent_append] at hem'
  rw [List.append_assoc] at hc'
  exact hc'.emitLast rfl (.index hem hem')

/-- A call is the callee, its arguments and one instruction. -/
lemma call {callee : Expr} {args : List Expr} (hf : Lays (.expr callee) callee.compile)
    (ha : ∀ e ∈ args, Lays (.expr e) e.compile) :
    Lays (.expr (.call callee args)) (Expr.compile (.call callee args)) := by
  intro c base d o hc
  rw [Expr.compile]
  refine hf.andThen hc fun is d₁ c₁ hem hc₁ => (exprs ha).andThen hc₁ fun is' d' c' hem' hc' => ?_
  rw [extent_append] at hem'
  rw [List.append_assoc] at hc'
  exact hc'.emitLast rfl (.call hem hem')

/-! ### Branches -/

/-- A branch is its statements, of which the last leaves its value. -/
lemma branch {ss : List Stmt} (h : ∀ s ∈ ss, Lays (.stmt s) s.compile) :
    LaysBranch ss (do Stmt.compileAll ss; Compiler.endBranch) := by
  intro c base d o hc hb
  refine (stmts h).andThen hc fun is d' c' hem hc' => ?_
  exact (hc'.endBranch hb hem.endsIn .here).mono (fun _ _ h => ⟨_, _, .branch hem, h⟩)
    (fun _ h => h)

/-- Without statements the branch is nil. -/
lemma noBranch : LaysBranch [] (Compiler.emit_ .pushNil []) := by
  intro c base d o hc _
  exact (hc.emit_ rfl .here).mono (fun _ _ h => ⟨_, _, .branch .noStmts, h⟩) (fun _ h => h)

/-- The code of a conditional, whatever writes its branches. -/
lemma conditional {condition : Expr} {yes : List Stmt} {no : Option (List Stmt)}
    {y n : Compile Unit} (hcond : Lays (.expr condition) condition.compile)
    (hyes : LaysBranch yes y) (hno : LaysBranch (no.getD []) n) :
    Lays (.expr (.cond condition yes no)) (do
      condition.compile
      let skip ← Compiler.emit .jumpNotTruthy [Compiler.placeholder]
      y
      let done ← Compiler.emit .jump [Compiler.placeholder]
      Compiler.land skip .jumpNotTruthy
      n
      Compiler.land done .jump) := by
  intro c base d o hc
  refine hcond.andThen hc fun is d₁ c₁ hem hc₁ => ?_
  refine (hc₁.emit rfl .here).bind ?_
  rintro skip c₂ ⟨rfl, hc₂⟩
  have hjnt : lastOp (base ++ is ++ [⟨.jumpNotTruthy, [Compiler.placeholder]⟩]) ≠ some .pop := by
    rw [lastOp_append_singleton]
    simp
  refine hyes.andThen hc₂ hjnt fun ys d₂ c₃ hemy hc₃ => ?_
  refine (hc₃.emit rfl .here).bind ?_
  rintro done c₄ ⟨rfl, hc₄⟩
  -- the first jump is patched behind the second one
  have hc₄' : c₄.At ((base ++ is) ++ ⟨.jumpNotTruthy, [Compiler.placeholder]⟩ ::
      (ys ++ [⟨.jump, [Compiler.placeholder]⟩])) d₂ o := by
    simpa using hc₄
  refine (hc₄'.land .here).bind fun _ c₅ hc₅ => ?_
  have htarget : extent ((base ++ is) ++ ⟨.jumpNotTruthy, [Compiler.placeholder]⟩ ::
      (ys ++ [⟨.jump, [Compiler.placeholder]⟩])) = extent base + extent is + 3 + extent ys + 3 := by
    simp [Instr.size, Opcode.operandBytes]
    omega
  rw [htarget] at hc₅
  have hjump :
      lastOp ((base ++ is) ++ ⟨.jumpNotTruthy, [extent base + extent is + 3 + extent ys + 3]⟩ ::
      (ys ++ [⟨.jump, [Compiler.placeholder]⟩])) ≠ some .pop := by
    rw [← List.cons_append, ← List.append_assoc, lastOp_append_singleton]
    simp
  refine hno.andThen hc₅ hjump fun ns d' c₆ hemn hc₆ => ?_
  -- and the second one at the very end
  set jnt : Instr := ⟨.jumpNotTruthy, [extent base + extent is + 3 + extent ys + 3]⟩ with hset
  have hc₆' : c₆.At ((base ++ is ++ jnt :: ys) ++ ⟨.jump, [Compiler.placeholder]⟩ :: ns) d' o := by
    simpa using hc₆
  have hdone : extent (base ++ is ++ [⟨.jumpNotTruthy, [Compiler.placeholder]⟩] ++ ys) =
      extent (base ++ is ++ jnt :: ys) := by
    simp [hset, Instr.size]
  have hend : extent ((base ++ is ++ jnt :: ys) ++ ⟨.jump, [Compiler.placeholder]⟩ :: ns) =
      extent base + extent is + 3 + extent ys + 3 + extent ns := by
    simp [hset, Instr.size, Opcode.operandBytes]
    omega
  rw [hdone]
  refine (hc₆'.land .here).mono (fun _ c' hc' => ?_) (fun _ h => h)
  rw [hend] at hc'
  have hposy : extent (base ++ is ++ [⟨.jumpNotTruthy, [Compiler.placeholder]⟩]) = extent base +
      extent is + 3 := by
    simp [Instr.size, Opcode.operandBytes]
    omega
  have hposn : extent ((base ++ is) ++ jnt :: (ys ++ [⟨.jump, [Compiler.placeholder]⟩])) =
      extent base + extent is + 3 + extent ys + 3 := by
    simp [hset, Instr.size, Opcode.operandBytes]
    omega
  rw [hposy] at hemy
  rw [hposn] at hemn
  refine ⟨_, d', .cond hem hemy hemn, ?_⟩
  simpa using hc'

/-- A conditional has two branches, and a missing one is nil. -/
lemma cond {condition : Expr} {yes : List Stmt} {no : Option (List Stmt)}
    (hcond : Lays (.expr condition) condition.compile) (hyes : ∀ s ∈ yes, Lays (.stmt s) s.compile)
    (hno : ∀ s ∈ no.getD [], Lays (.stmt s) s.compile) :
    Lays (.expr (.cond condition yes no)) (Expr.compile (.cond condition yes no)) := by
  cases no with
  | none =>
      have h : Lays (.expr (.cond condition yes none)) _ := conditional hcond (branch hyes) noBranch
      rw [Expr.compile]
      simpa only [bind_assoc] using h
  | some no =>
      have h : Lays (.expr (.cond condition yes (some no))) _ :=
        conditional hcond (branch hyes) (branch hno)
      rw [Expr.compile]
      simpa only [bind_assoc, Option.getD_some] using h

/-! ### Functions -/

/-- What is known of a function when it has been compiled. -/
lemma inFunction {body : List Stmt} (name : Option String) (params : List String)
    (h : ∀ s ∈ body, Lays (.stmt s) s.compile) (hc : c.At base d o) :
    Ends (Compiler.function name params (Stmt.compileAll body)) c
      (fun r c' => ∃ is t pool summary t',
        Emits (.stmts body) ⟨d.symbols.entry name params, d.constants⟩ 0 is ⟨t, pool⟩ ∧
        t.leave = some (summary, t') ∧ (∀ i ∈ asBody is, i.Fits) ∧
        r.1.code.toList = bytesOf (asBody is) ∧ r.1.locals = wordCount summary.definitions ∧
        r.1.params = wordCount params.length ∧ r.2 = summary.free ∧
        c'.At base ⟨t', pool⟩ o) (Opens d) := by
  unfold Compiler.function
  refine (hc.enterFunction name params).bind fun _ c₁ hc₁ => ?_
  refine ((stmts h).andThen (f := fun _ => _) hc₁ fun is d' c₂ hem hc₂ => ?_).mono (fun _ _ h => h)
    (fun _ h => .entered h)
  obtain ⟨t, pool⟩ := d'
  rw [List.nil_append] at hc₂
  refine (hc₂.endFunction .here).bind fun _ c₃ hc₃ => ?_
  have hdepth : t.depth = d.symbols.depth + 1 := hem.depth.trans (SymbolTable.depth_entry _ _ _)
  obtain ⟨summary, t', hleave⟩ : ∃ summary t', t.leave = some (summary, t') := by
    unfold SymbolTable.leave
    cases ho : t.outer with
    | nil => rw [SymbolTable.depth, ho] at hdepth; cases hdepth
    | cons u us => exact ⟨_, _, rfl⟩
  refine (hc₃.leaveFunction hc.tracks hleave).bind ?_
  rintro ⟨code, s⟩ c₄ ⟨hcode, rfl, hc₄⟩
  exact .pure ⟨is, t, pool, s, t', hem, hleave, hc₃.tracks.fits, hcode, rfl, rfl, rfl, hc₄⟩

/-- A function is loads of what it captures and an instruction that makes the closure. -/
lemma function {body : List Stmt} (name : Option String) (params : List String)
    (h : ∀ s ∈ body, Lays (.stmt s) s.compile) :
    Lays (.expr (.function name params body)) (Expr.compile (.function name params body)) := by
  intro c base d o hc
  rw [Expr.compile]
  refine (inFunction name params h hc).withRun.bind ?_
  rintro ⟨fn, free⟩ c₁ ⟨hrun, is, t, pool, summary, t', hem, hleave, hfits, hcode, hlocals,
    hparams, hfree, hc₁⟩
  simp only at hcode hlocals hparams hfree hc₁
  subst hfree
  have hfn : Emits (.expr (.function name params body)) d (extent base) _
      ⟨t', pool.push (.function fn)⟩ :=
    .function hem hleave hfits hcode hlocals hparams ⟨c, _, c₁, hrun⟩
  have hopen : Opens d ⟨t', pool⟩ := .entered (.emitted hem (.left hleave .here))
  refine (hc₁.loadAll summary.free hopen).bind fun _ c₂ hc₂ => ?_
  refine (hc₂.addConstant (.function fn)).bind ?_
  rintro index c₃ ⟨rfl, hc₃⟩
  exact (hc₃.emitLast rfl hfn).mono (fun _ _ h => h) (fun _ h => .emitted hfn h)

/-! ### Statements -/

/-- A definition binds its name before the value is compiled, so that a function can refer to
itself. -/
lemma define (name : String) {value : Expr} (h : Lays (.expr value) value.compile) :
    Lays (.stmt (.define name value)) (Stmt.compile (.define name value)) := by
  intro c base d o hc
  rw [Stmt.compile_define]
  refine (hc.define name).bind ?_
  rintro x c₁ ⟨rfl, hc₁⟩
  refine (h.andThen (f := fun _ => _) hc₁ fun is d' c' hem hc' => ?_).mono (fun _ _ h => h)
    (fun _ h => .defined h)
  refine (hc'.store _ .here).mono (fun _ _ h => ⟨_, _, .define hem, ?_⟩) (fun _ h => h)
  rwa [← List.append_assoc]

/-- An assignment to a name binds it if the scope has none, and stores. -/
lemma assignIdent (name : String) {value : Expr} (h : Lays (.expr value) value.compile) :
    Lays (.stmt (.assign (.ident name) value)) (Stmt.compile (.assign (.ident name) value)) := by
  intro c base d o hc
  rw [Stmt.compile]
  refine (hc.assignable name).bind ?_
  rintro x c₁ ⟨rfl, hc₁⟩
  have hopen {d'} (hd : Opens ⟨(d.symbols.assignable name).2, d.constants⟩ d') : Opens d d' := by
    rcases d.symbols.assignable_cases name with ⟨y, -, -, heq⟩ | ⟨-, heq⟩ <;> rw [heq] at hd
    · exact hd
    · exact .defined hd
  refine (h.andThen (f := fun _ => _) hc₁ fun is d' c' hem hc' => ?_).mono (fun _ _ h => h)
    (fun _ h => hopen h)
  refine (hc'.store _ .here).mono (fun _ _ h => ⟨_, _, .assign hem, ?_⟩) (fun _ h => h)
  rwa [← List.append_assoc]

/-- An assignment to an index is a container, a key, a value and one instruction. -/
lemma assignIndex {left index value : Expr} (hl : Lays (.expr left) left.compile)
    (hi : Lays (.expr index) index.compile) (hv : Lays (.expr value) value.compile) :
    Lays (.stmt (.assign (.index left index) value))
      (Stmt.compile (.assign (.index left index) value)) := by
  intro c base d o hc
  rw [Stmt.compile]
  refine hl.andThen hc fun is d₁ c₁ hem hc₁ => hi.andThen hc₁ fun is' d₂ c₂ hem' hc₂ => ?_
  refine hv.andThen hc₂ fun is'' d' c' hem'' hc' => ?_
  simp only [extent_append] at hem' hem''
  rw [List.append_assoc, List.append_assoc, ← List.append_assoc is] at hc'
  exact hc'.emitLast rfl (.setIndex hem hem' hem'')

/-- Other targets are refused. -/
lemma assign (target : Expr) {value : Expr} (hv : Lays (.expr value) value.compile)
    (hparts : ∀ left index, target = .index left index →
      Lays (.expr left) left.compile ∧ Lays (.expr index) index.compile) :
    Lays (.stmt (.assign target value)) (Stmt.compile (.assign target value)) := by
  cases target with
  | ident name => exact assignIdent name hv
  | index left index =>
      obtain ⟨hl, hi⟩ := hparts left index rfl
      exact assignIndex hl hi hv
  | _ =>
      intro c base d o hc
      exact .of_error rfl (hc.of_draft .here)

/-- A return is its value and one instruction. -/
lemma ret {value : Expr} (h : Lays (.expr value) value.compile) :
    Lays (.stmt (.ret value)) (Stmt.compile (.ret value)) := by
  intro c base d o hc
  rw [Stmt.compile]
  exact h.andThen hc fun is d' c' hem hc' => hc'.emitLast rfl (.ret hem)

/-- An expression as a statement drops its value. -/
lemma expr {e : Expr} (h : Lays (.expr e) e.compile) :
    Lays (.stmt (.expr e)) (Stmt.compile (.expr e)) := by
  intro c base d o hc
  rw [Stmt.compile]
  exact h.andThen hc fun is d' c' hem hc' => hc'.emitLast rfl (.expr hem)

/-- A block is its statements, in the same scope. -/
lemma block {body : List Stmt} (h : ∀ s ∈ body, Lays (.stmt s) s.compile) :
    Lays (.stmt (.block body)) (Stmt.compile (.block body)) := by
  intro c base d o hc
  rw [Stmt.compile]
  refine (stmts h hc).mono ?_ (fun _ h => h)
  rintro _ c' ⟨is, d', hem, hc'⟩
  exact ⟨is, d', .block hem, hc'⟩

end Lays

end

/-- Compiling the expression writes its code, and so does compiling the two parts of an index
expression: an assignment to one compiles its parts without it. -/
def Expr.LaysParts (e : Expr) : Prop :=
  Lays (.expr e) e.compile ∧
    ∀ left index, e = .index left index → Lays (.expr left) left.compile ∧
    Lays (.expr index) index.compile

/-- Every kind of tree is compiled to its code if its parts are. -/
lemma Tree.closed_lays : Tree.Closed Expr.LaysParts (fun s => Lays (.stmt s) s.compile) where
  ident name := ⟨.ident name, by simp⟩
  integer n := ⟨by rw [Expr.compile]; exact .constant rfl, by simp⟩
  float x := ⟨by rw [Expr.compile]; exact .constant rfl, by simp⟩
  string s := ⟨by rw [Expr.compile]; exact .constant rfl, by simp⟩
  boolean b := by
    refine ⟨?_, by simp⟩
    cases b <;> (rw [Expr.compile]; exact .immediate rfl rfl)
  nil := ⟨by rw [Expr.compile]; exact .immediate rfl rfl, by simp⟩
  array items h := ⟨.array fun e he => (h e he).1, by simp⟩
  hash pairs h := ⟨.hash fun p hp => ⟨(h p hp).1.1, (h p hp).2.1⟩, by simp⟩
  function name params body h := ⟨.function name params h, by simp⟩
  unary op right h := ⟨.unary op h.1, by simp⟩
  binary op left right hl hr := ⟨.binary op hl.1 hr.1, by simp⟩
  index left index hl hi := by
    refine ⟨.index hl.1 hi.1, fun l i heq => ?_⟩
    cases heq
    exact ⟨hl.1, hi.1⟩
  cond condition yes no hc hy hn := ⟨.cond hc.1 hy hn, by simp⟩
  call callee args hf ha := ⟨.call hf.1 fun e he => (ha e he).1, by simp⟩
  define name value h := .define name h.1
  assign target value ht hv := .assign target hv.1 ht.2
  ret value h := .ret h.1
  expr e h := .expr h.1
  block body h := .block h

/-- **The compiler follows the derivations.**  Compiling statements writes their code, or stops in
the middle of it. -/
theorem Stmt.lays_compileAll (ss : List Stmt) : Lays (.stmts ss) (Stmt.compileAll ss) :=
  .stmts fun s _ => Tree.closed_lays.forall_stmt s

end Marmoset
