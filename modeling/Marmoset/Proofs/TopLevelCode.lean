import Marmoset.Proofs.Operands

/-!
# Programs that keep to the top level

A program without a `return` outside of functions runs to the end of its code.  That can be seen in
the tree:

* `Expr.returns`, `Stmt.returns` — there is a `return` outside of functions.

It can be seen in the code as well:

* **`Emits.returns_eq_false`** — the code of a part without `return` does not return.
-/

namespace Marmoset

/-! ## Returns -/

mutual

/-- Whether there is a `return` in an expression, outside of functions. -/
def Expr.returns : Expr → Bool
  | .array items => Expr.anyReturns items
  | .hash pairs => Expr.anyPairReturns pairs
  | .unary _ right => right.returns
  | .binary _ left right => left.returns || right.returns
  | .index left index => left.returns || index.returns
  | .cond condition yes none => condition.returns || Stmt.anyReturns yes
  | .cond condition yes (some no) => condition.returns || Stmt.anyReturns yes || Stmt.anyReturns no
  | .call callee args => callee.returns || Expr.anyReturns args
  | _ => false
termination_by structural e => e

/-- Whether there is a `return` in a statement, outside of functions. -/
def Stmt.returns : Stmt → Bool
  | .define _ value => value.returns
  | .assign target value => target.returns || value.returns
  | .ret _ => true
  | .expr e => e.returns
  | .block body => Stmt.anyReturns body
termination_by structural s => s

def Expr.anyReturns : List Expr → Bool
  | [] => false
  | e :: es => e.returns || Expr.anyReturns es
termination_by structural es => es

def Expr.anyPairReturns : List (Expr × Expr) → Bool
  | [] => false
  | (k, v) :: ps => k.returns || v.returns || Expr.anyPairReturns ps
termination_by structural ps => ps

def Stmt.anyReturns : List Stmt → Bool
  | [] => false
  | s :: ss => s.returns || Stmt.anyReturns ss
termination_by structural ss => ss

end

/-- Whether there is a `return` in a part, outside of functions. -/
def Part.returns : Part → Bool
  | .expr e => e.returns
  | .exprs es => Expr.anyReturns es
  | .pairs ps => Expr.anyPairReturns ps
  | .stmt s => s.returns
  | .stmts ss | .branch ss => Stmt.anyReturns ss

lemma Expr.anyPairReturns_eq_false {ps : List (Expr × Expr)} :
    Expr.anyPairReturns ps = false ↔ ∀ p ∈ ps, p.1.returns = false ∧ p.2.returns = false := by
  induction ps with
  | nil => simp [Expr.anyPairReturns]
  | cons p ps ih =>
      obtain ⟨k, v⟩ := p
      simp only [Expr.anyPairReturns, Bool.or_eq_false_iff, ih, List.forall_mem_cons]

lemma Expr.returns_cond {condition : Expr} {yes : List Stmt} {no : Option (List Stmt)}
    (h : (Expr.cond condition yes no).returns = false) :
    condition.returns = false ∧ Stmt.anyReturns yes = false ∧
      Stmt.anyReturns (no.getD []) = false := by
  cases no with
  | none =>
      simp only [Expr.returns, Bool.or_eq_false_iff] at h
      exact ⟨h.1, h.2, rfl⟩
  | some no =>
      simp only [Expr.returns, Bool.or_eq_false_iff] at h
      exact ⟨h.1.1, h.1.2, h.2⟩

lemma Stmt.anyReturns_eq_false {ss : List Stmt} :
    Stmt.anyReturns ss = false ↔ ∀ s ∈ ss, s.returns = false := by
  induction ss with
  | nil => simp [Stmt.anyReturns]
  | cons s ss ih => simp only [Stmt.anyReturns, Bool.or_eq_false_iff, ih, List.forall_mem_cons]

lemma Symbol.returns_loadInstr (x : Symbol) : x.loadInstr.returns = false := by
  unfold Symbol.loadInstr
  cases x.kind <;> rfl

lemma Symbol.returns_storeInstr (x : Symbol) : x.storeInstr.returns = false := by
  unfold Symbol.storeInstr
  cases x.kind <;> rfl

lemma Opcode.returns_of_isUnary {op : Opcode} (h : op.isUnary = true) :
    (Instr.plain op).returns = false := by
  cases op <;> first | rfl | cases h

lemma Opcode.returns_of_isBinary {op : Opcode} (h : op.isBinary = true) :
    (Instr.plain op).returns = false := by
  cases op <;> first | rfl | cases h

/-- **The code of a part without `return` does not return.** -/
theorem Emits.returns_eq_false {part : Part} {d d' : Draft} {pos : Nat} {is : List Instr}
    (h : Emits part d pos is d') (hr : part.returns = false) : ∀ i ∈ is, i.returns = false := by
  have concat {is : List Instr} {i : Instr} (his : ∀ i ∈ is, i.returns = false)
      (hi : i.returns = false) :
      ∀ j ∈ is ++ [i], j.returns = false :=
    List.forall_mem_append.mpr ⟨his, List.forall_mem_singleton.mpr hi⟩
  induction h with
  | ident _ => exact List.forall_mem_singleton.mpr (Symbol.returns_loadInstr _)
  | constant _ => exact List.forall_mem_singleton.mpr rfl
  | immediate literal =>
      refine List.forall_mem_singleton.mpr ?_
      unfold Expr.immediate? at literal
      split at literal <;> cases literal <;> rfl
  | array _ ih => exact concat (ih hr) rfl
  | hash _ ih =>
      have hsorted := Expr.anyPairReturns_eq_false.mpr fun p hp =>
        Expr.anyPairReturns_eq_false.mp hr p (mem_sortedPairs.mp hp)
      exact concat (ih hsorted) rfl
  | function =>
      refine concat (fun i hi => ?_) rfl
      obtain ⟨x, -, rfl⟩ := List.mem_map.mp hi
      exact x.returns_loadInstr
  | unary known _ ih =>
      exact concat (ih hr) (Opcode.returns_of_isUnary (Operator.isUnary_of_unary? known))
  | binary known _ _ ih ih' =>
      obtain ⟨hl, hr⟩ := Bool.or_eq_false_iff.mp hr
      exact concat (List.forall_mem_append.mpr ⟨ih hl, ih' hr⟩)
        (Opcode.returns_of_isBinary (Operator.isBinary_of_binary? known))
  | swapped known _ _ ih ih' =>
      obtain ⟨hl, hr⟩ := Bool.or_eq_false_iff.mp hr
      exact concat (List.forall_mem_append.mpr ⟨ih hr, ih' hl⟩)
        (Opcode.returns_of_isBinary (Operator.isBinary_of_binary? known))
  | index _ _ ih ih' | call _ _ ih ih' =>
      obtain ⟨hl, hr⟩ := Bool.or_eq_false_iff.mp hr
      exact concat (List.forall_mem_append.mpr ⟨ih hl, ih' hr⟩) rfl
  | cond _ _ _ ih ih' ih'' =>
      obtain ⟨hc, hy, hn⟩ := Expr.returns_cond hr
      exact List.forall_mem_append.mpr ⟨ih hc, List.forall_mem_cons.mpr ⟨rfl,
        List.forall_mem_append.mpr ⟨ih' hy, List.forall_mem_cons.mpr ⟨rfl, ih'' hn⟩⟩⟩⟩
  | noExprs | noPairs | noStmts => exact List.forall_mem_nil _
  | exprs _ _ ih ih' | stmts _ _ ih ih' =>
      obtain ⟨hl, hr⟩ := Bool.or_eq_false_iff.mp hr
      exact List.forall_mem_append.mpr ⟨ih hl, ih' hr⟩
  | pairs _ _ _ ih ih' ih'' =>
      simp only [Part.returns, Expr.anyPairReturns, Bool.or_eq_false_iff] at hr
      exact List.forall_mem_append.mpr
        ⟨List.forall_mem_append.mpr ⟨ih hr.1.1, ih' hr.1.2⟩, ih'' hr.2⟩
  | define _ ih | assign _ ih => exact concat (ih hr) (Symbol.returns_storeInstr _)
  | setIndex _ _ _ ih ih' ih'' =>
      simp only [Part.returns, Stmt.returns, Expr.returns, Bool.or_eq_false_iff] at hr
      exact concat (List.forall_mem_append.mpr
        ⟨List.forall_mem_append.mpr ⟨ih hr.1.1, ih' hr.1.2⟩, ih'' hr.2⟩) rfl
  | ret => cases hr
  | expr _ ih => exact concat (ih hr) rfl
  | block _ ih => exact ih hr
  | branch _ ih =>
      intro i hi
      rcases mem_asBranch hi with hi | rfl
      · exact ih hr i hi
      · rfl

end Marmoset
