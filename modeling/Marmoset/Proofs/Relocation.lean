import Marmoset.Proofs.Balance
import Marmoset.Proofs.ScopeRules

/-!
# Code in another place

The same part, compiled with the same names and constants but further on in the code, gives the same
instructions: only jumps differ, by the distance.

* `Instr.moved` — an instruction that distance further on.
* **`Emits.moved`** — this relation between the code of a part here and there.
-/

namespace Marmoset

/-! ## Instructions -/

namespace Instr

/-- The instruction in code that stands so many bytes further on. -/
def moved (distance : Nat) (i : Instr) : Instr :=
  if i.jumps then ⟨i.op, i.operands.map (· + distance)⟩ else i

variable {δ : Nat}

lemma moved_of_jumps {i : Instr} (h : i.jumps = false) : i.moved δ = i := by
  rw [moved, if_neg (by rw [h]; exact Bool.false_ne_true)]

@[simp] lemma op_moved (i : Instr) : (i.moved δ).op = i.op := by
  unfold moved
  split_ifs <;> rfl

@[simp] lemma moved_zero (i : Instr) : i.moved 0 = i := by
  unfold moved
  split_ifs
  · simp
  · rfl

@[simp] lemma size_moved (i : Instr) : (i.moved δ).size = i.size := by
  rw [size, size, op_moved]

lemma first_moved {i : Instr} (h : i.jumps = true) (ho : i.operands ≠ []) :
    (i.moved δ).first = i.first + δ := by
  obtain ⟨op, operands⟩ := i
  cases operands with
  | nil => exact absurd rfl ho
  | cons n ns => rw [moved, if_pos h]; rfl

end Instr

variable {δ : Nat}

@[simp] lemma extent_moved (is : List Instr) : extent (is.map (Instr.moved δ)) = extent is :=
  extent_congr (by simp [Function.comp_def])

@[simp] lemma lastOp_moved (is : List Instr) : lastOp (is.map (Instr.moved δ)) = lastOp is := by
  simp [lastOp, Function.comp_def]

lemma asBranch_moved (is : List Instr) :
    asBranch (is.map (Instr.moved δ)) = (asBranch is).map (Instr.moved δ) := by
  unfold asBranch
  rw [lastOp_moved]
  split_ifs
  · rw [List.map_dropLast]
  · rw [List.map_append]
    rfl

/-- Behind code that is moved stands an instruction that does not jump. -/
lemma moved_concat {i : Instr} (is : List Instr) (h : i.jumps = false) :
    is.map (Instr.moved δ) ++ [i] = (is ++ [i]).map (Instr.moved δ) := by
  rw [List.map_append, List.map_singleton, Instr.moved_of_jumps h]

/-- Instructions that push what symbols stand for. -/
lemma moved_loads (xs : List Symbol) {i : Instr} (h : i.jumps = false) :
    xs.map Symbol.loadInstr ++ [i] = (xs.map Symbol.loadInstr ++ [i]).map (Instr.moved δ) := by
  rw [← moved_concat _ h, List.map_map]
  congr 1
  exact List.map_congr_left fun x _ => (Instr.moved_of_jumps x.loadInstr_effect.2.2).symm

/-- Where the next code begins. -/
lemma next_pos (pos : Nat) (is : List Instr) :
    pos + δ + extent (is.map (Instr.moved δ)) = pos + extent is + δ := by
  rw [extent_moved]
  omega

/-- A function is its code and its two numbers. -/
lemma CompiledFunction.eq_of_code {f g : CompiledFunction} (hc : f.code.toList = g.code.toList)
    (hl : f.locals = g.locals) (hp : f.params = g.params) : f = g := by
  obtain ⟨code, locals, params⟩ := f
  obtain ⟨code', locals', params'⟩ := g
  cases Array.toList_inj.mp hc
  cases hl
  cases hp
  rfl

/-- A literal is either in the pool or not. -/
lemma Expr.immediate?_of_constant? {e : Expr} {k : Constant} (h : e.constant? = some k) :
    e.immediate? = none := by
  cases e <;> first | rfl | cases h

/-- Two parts one behind the other, of which it is known how each of them looks further on. -/
lemma Emits.moved_append {part part' : Part} {d d₁ d₁' d' d'' : Draft} {pos : Nat}
    {is is' js js' : List Instr}
    (ih : ∀ {is' d''}, Emits part d (pos + δ) is' d'' → is' = is.map (Instr.moved δ) ∧ d'' = d₁)
    (ih' : ∀ {js' d''}, Emits part' d₁ (pos + extent is + δ) js' d'' →
      js' = js.map (Instr.moved δ) ∧ d'' = d')
    (h : Emits part d (pos + δ) is' d₁') (h' : Emits part' d₁' (pos + δ + extent is') js' d'') :
    is' ++ js' = (is ++ js).map (Instr.moved δ) ∧ d'' = d' := by
  obtain ⟨rfl, rfl⟩ := ih h
  rw [next_pos] at h'
  obtain ⟨rfl, rfl⟩ := ih' h'
  exact ⟨List.map_append.symm, rfl⟩

/-- **The code of a part further on.** -/
theorem Emits.moved {part : Part} {d d' d'' : Draft} {pos : Nat} {is is' : List Instr}
    (h : Emits part d pos is d') (h' : Emits part d (pos + δ) is' d'') :
    is' = is.map (Instr.moved δ) ∧ d'' = d' := by
  -- the code at the other place comes from the same rule, which the form of the part decides
  induction h generalizing δ is' d'' with
  | ident resolved =>
      cases h' with
      | ident resolved' =>
          obtain ⟨rfl, rfl⟩ := Prod.mk.inj (Option.some.inj (resolved.symm.trans resolved'))
          exact ⟨moved_concat [] (Symbol.loadInstr_effect _).2.2, rfl⟩
      | constant l | immediate l => cases l
  | constant literal =>
      cases h' with
      | constant literal' =>
          cases literal.symm.trans literal'
          exact ⟨rfl, rfl⟩
      | immediate l => cases (Expr.immediate?_of_constant? literal).symm.trans l
      | _ => cases literal
  | immediate literal =>
      cases h' with
      | immediate literal' =>
          cases literal.symm.trans literal'
          exact ⟨moved_concat [] (Expr.effect_of_immediate? literal).2.2, rfl⟩
      | constant l => cases (Expr.immediate?_of_constant? l).symm.trans literal
      | _ => cases literal
  | array _ ih =>
      cases h' with
      | array hitems =>
          obtain ⟨rfl, rfl⟩ := ih hitems
          exact ⟨moved_concat _ rfl, rfl⟩
      | constant l | immediate l => cases l
  | hash _ ih =>
      cases h' with
      | hash hpairs =>
          obtain ⟨rfl, rfl⟩ := ih hpairs
          exact ⟨moved_concat _ rfl, rfl⟩
      | constant l | immediate l => cases l
  | function hbody left _ code locals arity _ ih =>
      cases h' with
      | function hbody' left' _ code' locals' arity' _ =>
          -- the code of the function starts from its own beginning in both
          obtain ⟨rfl, hd⟩ := @ih 0 _ _ hbody'
          cases hd
          cases left.symm.trans left'
          rw [List.map_congr_left (g := id) fun i _ => i.moved_zero, List.map_id] at code'
          cases CompiledFunction.eq_of_code (code'.trans code.symm) (locals'.trans locals.symm)
            (arity'.trans arity.symm)
          exact ⟨moved_loads _ rfl, rfl⟩
      | constant l | immediate l => cases l
  | unary known _ ih =>
      cases h' with
      | unary known' hright =>
          cases known.symm.trans known'
          obtain ⟨rfl, rfl⟩ := ih hright
          exact ⟨moved_concat _
            (Opcode.effect_of_isUnary (Operator.isUnary_of_unary? known)).2.2, rfl⟩
      | constant l | immediate l => cases l
  | binary known _ _ ih ih' =>
      cases h' with
      | binary known' hleft hright =>
          cases known.symm.trans known'
          obtain ⟨hcode, rfl⟩ := moved_append ih ih' hleft hright
          rw [hcode]
          exact ⟨moved_concat _
            (Opcode.effect_of_isBinary (Operator.isBinary_of_binary? known)).2.2, rfl⟩
      | swapped known' _ _ => cases known.symm.trans known'
      | constant l | immediate l => cases l
  | swapped known _ _ ih ih' =>
      cases h' with
      | swapped known' hright hleft =>
          cases known.symm.trans known'
          obtain ⟨hcode, rfl⟩ := moved_append ih ih' hright hleft
          rw [hcode]
          exact ⟨moved_concat _
            (Opcode.effect_of_isBinary (Operator.isBinary_of_binary? known)).2.2, rfl⟩
      | binary known' _ _ => cases known.symm.trans known'
      | constant l | immediate l => cases l
  | index _ _ ih ih' =>
      cases h' with
      | index hleft hindex =>
          obtain ⟨hcode, rfl⟩ := moved_append ih ih' hleft hindex
          rw [hcode]
          exact ⟨moved_concat _ rfl, rfl⟩
      | constant l | immediate l => cases l
  | @cond _ _ _ _ pos is _ ys _ ns _ _ _ _ ih ih' ih'' =>
      cases h' with
      | cond hcond hyes hno =>
          obtain ⟨rfl, rfl⟩ := ih hcond
          have hpos : pos + δ + extent (is.map (Instr.moved δ)) + 3 = pos + extent is + 3 + δ := by
            rw [next_pos]
            omega
          rw [hpos] at hyes hno
          obtain ⟨rfl, rfl⟩ := ih' hyes
          have hpos' : pos + extent is + 3 + δ + extent (ys.map (Instr.moved δ)) + 3 =
              pos + extent is + 3 + extent ys + 3 + δ := by
            rw [next_pos]
            omega
          rw [hpos'] at hno
          obtain ⟨rfl, rfl⟩ := ih'' hno
          rw [extent_moved] at hpos hpos'
          refine ⟨?_, rfl⟩
          rw [extent_moved, extent_moved, extent_moved, hpos, hpos', Nat.add_right_comm _ δ]
          simp [Instr.moved, Instr.jumps]
      | constant l | immediate l => cases l
  | call _ _ ih ih' =>
      cases h' with
      | call hcallee hargs =>
          obtain ⟨hcode, rfl⟩ := moved_append ih ih' hcallee hargs
          rw [hcode]
          exact ⟨moved_concat _ rfl, rfl⟩
      | constant l | immediate l => cases l
  | noExprs | noPairs | noStmts =>
      cases h'
      exact ⟨rfl, rfl⟩
  | exprs _ _ ih ih' =>
      cases h' with
      | exprs hhead htail => exact moved_append ih ih' hhead htail
  | stmts _ _ ih ih' =>
      cases h' with
      | stmts hhead htail => exact moved_append ih ih' hhead htail
  | pairs _ _ _ ih ih' ih'' =>
      cases h' with
      | pairs hkey hvalue htail =>
          obtain ⟨rfl, rfl⟩ := ih hkey
          rw [next_pos] at hvalue htail
          obtain ⟨rfl, rfl⟩ := ih' hvalue
          rw [next_pos] at htail
          obtain ⟨rfl, rfl⟩ := ih'' htail
          exact ⟨by rw [List.map_append, List.map_append], rfl⟩
  | define _ ih =>
      cases h' with
      | define hvalue =>
          obtain ⟨rfl, rfl⟩ := ih hvalue
          exact ⟨moved_concat _ (Symbol.storeInstr_effect _).2.2, rfl⟩
  | assign _ ih =>
      cases h' with
      | assign hvalue =>
          obtain ⟨rfl, rfl⟩ := ih hvalue
          exact ⟨moved_concat _ (Symbol.storeInstr_effect _).2.2, rfl⟩
  | setIndex _ _ _ ih ih' ih'' =>
      cases h' with
      | setIndex hleft hindex hvalue =>
          obtain ⟨rfl, rfl⟩ := ih hleft
          rw [next_pos] at hindex hvalue
          obtain ⟨rfl, rfl⟩ := ih' hindex
          rw [next_pos] at hvalue
          obtain ⟨rfl, rfl⟩ := ih'' hvalue
          rw [← List.map_append, ← List.map_append]
          exact ⟨moved_concat _ rfl, rfl⟩
  | ret _ ih =>
      cases h' with
      | ret hvalue =>
          obtain ⟨rfl, rfl⟩ := ih hvalue
          exact ⟨moved_concat _ rfl, rfl⟩
  | expr _ ih =>
      cases h' with
      | expr hvalue =>
          obtain ⟨rfl, rfl⟩ := ih hvalue
          exact ⟨moved_concat _ rfl, rfl⟩
  | block _ ih =>
      cases h' with
      | block hbody => exact ih hbody
  | branch _ ih =>
      cases h' with
      | branch hbody =>
          obtain ⟨rfl, rfl⟩ := ih hbody
          exact ⟨asBranch_moved _, rfl⟩

/-- The code of statements one behind the other. -/
lemma Emits.stmts_append {xs ys : List Stmt} {d d' : Draft} {pos : Nat} {is : List Instr}
    (h : Emits (.stmts (xs ++ ys)) d pos is d') :
    ∃ is₁ d₁ is₂, is = is₁ ++ is₂ ∧ Emits (.stmts xs) d pos is₁ d₁ ∧
      Emits (.stmts ys) d₁ (pos + extent is₁) is₂ d' := by
  induction xs generalizing d pos is with
  | nil => exact ⟨[], d, is, rfl, .noStmts, h⟩
  | cons s ss ih =>
      cases h with
      | stmts hs hrest =>
          obtain ⟨is₁, d₁, is₂, rfl, h₁, h₂⟩ := ih hrest
          refine ⟨_, d₁, is₂, (List.append_assoc _ _ _).symm, .stmts hs h₁, ?_⟩
          rwa [extent_append, ← Nat.add_assoc]

end Marmoset
