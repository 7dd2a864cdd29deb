import Marmoset.Proofs.Buffers
import Marmoset.Proofs.Scopes
import Marmoset.Proofs.Trees

/-!
# The code of a tree

The compiler writes bytes, goes back to patch its jumps and takes instructions back.  `Emits` says
what comes out of it in the end, as a derivation that follows the tree: which instructions a part of
a program is compiled to, and what becomes of the names and the constants meanwhile.  Everything
that is proved about compiled code is an induction over these derivations.

* `Emits.depth`, `Emits.endsIn` — every function that is entered is left again, and a part ends as
  the compiler expects it when it looks at the last instruction.
* `Opens` — the names and constants where an error stops the compiler: some parts were compiled, and
  some functions are still open.
-/

namespace Marmoset

/-- What the compiler knows apart from code. -/
structure Draft where
  symbols : SymbolTable
  constants : Array Constant

/-- A part of a program that code is written for. -/
inductive Part where
  | expr (e : Expr)
  | exprs (es : List Expr)
  /-- Keys and values, in the order in which they are compiled. -/
  | pairs (ps : List (Expr × Expr))
  | stmt (s : Stmt)
  | stmts (ss : List Stmt)
  /-- Statements that leave a value: that of the last one if it is an expression, and otherwise
  nil. -/
  | branch (ss : List Stmt)

/-- The instruction that pushes what a symbol stands for. -/
def Symbol.loadInstr (x : Symbol) : Instr :=
  match x.kind with
  | .global => ⟨.getGlobal, [x.index]⟩
  | .local => ⟨.getLocal, [x.index]⟩
  | .builtin => ⟨.getBuiltin, [x.index]⟩
  | .free => ⟨.getFree, [x.index]⟩
  | .function => ⟨.currentClosure, []⟩

/-- The instruction that pops a value into the slot of a symbol. -/
def Symbol.storeInstr (x : Symbol) : Instr :=
  match x.kind with
  | .global => ⟨.setGlobal, [x.index]⟩
  | _ => ⟨.setLocal, [x.index]⟩

/-- The names at the start of a function. -/
def SymbolTable.entry (t : SymbolTable) (name : Option String) (params : List String) :
    SymbolTable :=
  params.foldl (fun t p => (t.define p).2)
    (match name with
      | some n => (t.enter.defineFunctionName n).2
      | none => t.enter)

/-- What an assignment to `name` stores to. -/
def SymbolTable.assignable (t : SymbolTable) (name : String) : Symbol × SymbolTable :=
  match t.findHere? name with
  | some x => if x.kind.owned then (x, t) else t.define name
  | none => t.define name

/-- The entry of the pool for a literal. -/
def Expr.constant? : Expr → Option Constant
  | .integer n => some (.integer n)
  | .float x => some (.float x)
  | .string s => some (.string s)
  | _ => none

/-- The instruction for a literal that is not in the pool. -/
def Expr.immediate? : Expr → Option Opcode
  | .boolean true => some .pushTrue
  | .boolean false => some .pushFalse
  | .nil => some .pushNil
  | _ => none

/-- The code of a branch, from that of its statements. -/
def asBranch (is : List Instr) : List Instr :=
  if lastOp is = some .pop then is.dropLast else is ++ [.plain .pushNil]

/-- The code of a function, from that of its statements. -/
def asBody (is : List Instr) : List Instr :=
  if lastOp is = some .pop then is.dropLast ++ [.plain .returnValue]
  else if lastOp is = some .returnValue then is
  else is ++ [.plain .returnNil]

/-- A function value as it is compiled somewhere. -/
def CompilesTo (name : Option String) (params : List String) (body : List Stmt)
    (fn : CompiledFunction) : Prop :=
  ∃ c free c', Compiler.function name params (Stmt.compileAll body) c = .ok (fn, free) c'

/-- **What the compiler writes.**  `Emits part d pos is d'` says that the code of `part`, from byte
`pos` on, is `is`, and that names and constants go from `d` to `d'`. -/
inductive Emits : Part → Draft → Nat → List Instr → Draft → Prop where
  | ident {name x t d pos} (resolved : d.symbols.resolve name = some (x, t)) :
      Emits (.expr (.ident name)) d pos [x.loadInstr] { d with symbols := t }
  | constant {e k d pos} (literal : e.constant? = some k) :
      Emits (.expr e) d pos [⟨.constant, [d.constants.size]⟩]
        { d with constants := d.constants.push k }
  | immediate {e op d pos} (literal : e.immediate? = some op) : Emits (.expr e) d pos [.plain op] d
  | array {items d pos is d'} (hitems : Emits (.exprs items) d pos is d') :
      Emits (.expr (.array items)) d pos (is ++ [⟨.array, [items.length]⟩]) d'
  | hash {pairs d pos is d'} (hpairs : Emits (.pairs (sortedPairs pairs)) d pos is d') :
      Emits (.expr (.hash pairs)) d pos (is ++ [⟨.hash, [pairs.length * 2]⟩]) d'
  | function {name params body d pos is t pool summary t' fn}
      (hbody : Emits (.stmts body) ⟨d.symbols.entry name params, d.constants⟩ 0 is ⟨t, pool⟩)
      (left : t.leave = some (summary, t'))
      (fits : ∀ i ∈ asBody is, i.Fits)
      (code : fn.code.toList = bytesOf (asBody is))
      (locals : fn.locals = wordCount summary.definitions)
      (arity : fn.params = wordCount params.length)
      (compiled : CompilesTo name params body fn) :
      Emits (.expr (.function name params body)) d pos
        (summary.free.map Symbol.loadInstr ++ [⟨.closure, [pool.size, summary.free.length]⟩])
        ⟨t', pool.push (.function fn)⟩
  | unary {op code right d pos is d'} (known : Operator.unary? op = some code)
      (hright : Emits (.expr right) d pos is d') :
      Emits (.expr (.unary op right)) d pos (is ++ [.plain code]) d'
  | binary {op code left right d pos is d₁ is' d'}
      (known : Operator.binary? op = some (code, false))
      (hleft : Emits (.expr left) d pos is d₁)
      (hright : Emits (.expr right) d₁ (pos + extent is) is' d') :
      Emits (.expr (.binary op left right)) d pos (is ++ is' ++ [.plain code]) d'
  | swapped {op code left right d pos is d₁ is' d'}
      (known : Operator.binary? op = some (code, true))
      (hright : Emits (.expr right) d pos is d₁)
      (hleft : Emits (.expr left) d₁ (pos + extent is) is' d') :
      Emits (.expr (.binary op left right)) d pos (is ++ is' ++ [.plain code]) d'
  | index {left index d pos is d₁ is' d'} (hleft : Emits (.expr left) d pos is d₁)
      (hindex : Emits (.expr index) d₁ (pos + extent is) is' d') :
      Emits (.expr (.index left index)) d pos (is ++ is' ++ [.plain .getIndex]) d'
  | cond {condition yes no d pos is d₁ ys d₂ ns d'} (hcond : Emits (.expr condition) d pos is d₁)
      (hyes : Emits (.branch yes) d₁ (pos + extent is + 3) ys d₂)
      (hno : Emits (.branch (no.getD [])) d₂ (pos + extent is + 3 + extent ys + 3) ns d') :
      Emits (.expr (.cond condition yes no)) d pos
        (is ++ ⟨.jumpNotTruthy, [pos + extent is + 3 + extent ys + 3]⟩ ::
          (ys ++ ⟨.jump, [pos + extent is + 3 + extent ys + 3 + extent ns]⟩ :: ns)) d'
  | call {callee args d pos is d₁ is' d'} (hcallee : Emits (.expr callee) d pos is d₁)
      (hargs : Emits (.exprs args) d₁ (pos + extent is) is' d') :
      Emits (.expr (.call callee args)) d pos (is ++ is' ++ [⟨.call, [args.length]⟩]) d'
  | noExprs {d pos} : Emits (.exprs []) d pos [] d
  | exprs {e es d pos is d₁ is' d'} (hhead : Emits (.expr e) d pos is d₁)
      (htail : Emits (.exprs es) d₁ (pos + extent is) is' d') :
      Emits (.exprs (e :: es)) d pos (is ++ is') d'
  | noPairs {d pos} : Emits (.pairs []) d pos [] d
  | pairs {k v ps d pos is d₁ is' d₂ is'' d'} (hkey : Emits (.expr k) d pos is d₁)
      (hvalue : Emits (.expr v) d₁ (pos + extent is) is' d₂)
      (htail : Emits (.pairs ps) d₂ (pos + extent is + extent is') is'' d') :
      Emits (.pairs ((k, v) :: ps)) d pos (is ++ is' ++ is'') d'
  | define {name value d pos is d'}
      (hvalue : Emits (.expr value) { d with symbols := (d.symbols.define name).2 } pos is d') :
      Emits (.stmt (.define name value)) d pos (is ++ [(d.symbols.define name).1.storeInstr]) d'
  | assign {name value d pos is d'}
      (hvalue : Emits (.expr value) { d with symbols := (d.symbols.assignable name).2 } pos is d') :
      Emits (.stmt (.assign (.ident name) value)) d pos
        (is ++ [(d.symbols.assignable name).1.storeInstr]) d'
  | setIndex {left index value d pos is d₁ is' d₂ is'' d'} (hleft : Emits (.expr left) d pos is d₁)
      (hindex : Emits (.expr index) d₁ (pos + extent is) is' d₂)
      (hvalue : Emits (.expr value) d₂ (pos + extent is + extent is') is'' d') :
      Emits (.stmt (.assign (.index left index) value)) d pos
        (is ++ is' ++ is'' ++ [.plain .setIndex]) d'
  | ret {value d pos is d'} (hvalue : Emits (.expr value) d pos is d') :
      Emits (.stmt (.ret value)) d pos (is ++ [.plain .returnValue]) d'
  | expr {e d pos is d'} (hvalue : Emits (.expr e) d pos is d') :
      Emits (.stmt (.expr e)) d pos (is ++ [.pop]) d'
  | block {body d pos is d'} (hbody : Emits (.stmts body) d pos is d') :
      Emits (.stmt (.block body)) d pos is d'
  | noStmts {d pos} : Emits (.stmts []) d pos [] d
  | stmts {s ss d pos is d₁ is' d'} (hhead : Emits (.stmt s) d pos is d₁)
      (htail : Emits (.stmts ss) d₁ (pos + extent is) is' d') :
      Emits (.stmts (s :: ss)) d pos (is ++ is') d'
  | branch {ss d pos is d'} (hbody : Emits (.stmts ss) d pos is d') :
      Emits (.branch ss) d pos (asBranch is) d'

/-- Names and constants where an error stops the compiler. -/
inductive Opens : Draft → Draft → Prop where
  | here {d} : Opens d d
  | emitted {part d pos is d₁ d'} (h : Emits part d pos is d₁) (rest : Opens d₁ d') : Opens d d'
  | defined {name d d'}
      (rest : Opens { d with symbols := (d.symbols.define name).2 } d') : Opens d d'
  | entered {name params d d'}
      (rest : Opens ⟨d.symbols.entry name params, d.constants⟩ d') : Opens d d'
  | left {d summary t d'} (h : d.symbols.leave = some (summary, t))
      (rest : Opens { d with symbols := t } d') :
      Opens d d'

/-! ## What can be read off a derivation -/

/-- The opcodes of binary operators. -/
def Opcode.isBinary : Opcode → Bool
  | .add | .sub | .mul | .div | .equal | .notEqual | .greater | .greaterEqual | .and | .or => true
  | _ => false

/-- The opcodes of unary operators. -/
def Opcode.isUnary : Opcode → Bool
  | .minus | .bang => true
  | _ => false

/-- The operators in front of an operand have opcodes of their own. -/
lemma Operator.isUnary_of_unary? {op : String} {code : Opcode} (h : unary? op = some code) :
    code.isUnary = true := by
  unfold unary? at h
  split_ifs at h <;> (rw [← Option.some.inj h]; rfl)

/-- So have those between operands. -/
lemma Operator.isBinary_of_binary? {op : String} {code : Opcode} {b : Bool}
    (h : binary? op = some (code, b)) :
    code.isBinary = true := by
  have key : (binary? op).all (fun p => p.1.isBinary) = true := by
    unfold binary?
    repeat'
      refine iteInduction (motive := fun r => Option.all _ r = true) (fun _ => rfl) (fun _ => ?_)
    rfl
  rwa [h] at key

/-- They have no operands in the code. -/
lemma Opcode.widths_of_isUnary {op : Opcode} (h : op.isUnary = true) : op.widths = [] := by
  cases op <;> first | rfl | cases h

lemma Opcode.widths_of_isBinary {op : Opcode} (h : op.isBinary = true) : op.widths = [] := by
  cases op <;> first | rfl | cases h

/-- Loading a symbol is no `pop`. -/
lemma Symbol.loadInstr_ne_pop (x : Symbol) : x.loadInstr.op ≠ .pop := by
  unfold Symbol.loadInstr
  cases x.kind <;> simp

/-- Neither is storing to it. -/
lemma Symbol.storeInstr_ne_pop (x : Symbol) : x.storeInstr.op ≠ .pop := by
  unfold Symbol.storeInstr
  cases x.kind <;> simp

namespace SymbolTable

@[simp] lemma depth_define (t : SymbolTable) (n : String) : (t.define n).2.depth = t.depth := rfl

/-- Leaving a function goes one scope out. -/
lemma depth_leave {t t' : SymbolTable} {summary : ScopeSummary} (h : t.leave = some (summary, t')) :
    t.depth = t'.depth + 1 := by
  obtain ⟨o, os, ho, rfl, -⟩ := leave_eq_some h
  rw [depth, ho]
  rfl

/-- Entering one goes one scope in. -/
lemma depth_entry (t : SymbolTable) (name : Option String) (params : List String) :
    (t.entry name params).depth = t.depth + 1 := by
  have key (ps : List String) (u : SymbolTable) :
      (ps.foldl (fun t p => (t.define p).2) u).depth = u.depth := by
    induction ps generalizing u with
    | nil => rfl
    | cons p ps ih => exact (ih _).trans (depth_define u p)
  unfold entry
  rw [key]
  cases name <;> rfl

/-- An assignment stores to the slot that the scope has for the name, or makes one. -/
lemma assignable_cases (t : SymbolTable) (n : String) :
    (∃ x, t.current.find? n = some x ∧ x.kind.owned = true ∧ t.assignable n = (x, t)) ∨
      ((∀ x, t.current.find? n = some x → x.kind.owned = false) ∧ t.assignable n = t.define n) := by
  unfold assignable findHere?
  cases h : t.current.find? n with
  | none => exact .inr ⟨by simp, rfl⟩
  | some x =>
      cases ho : x.kind.owned with
      | true => exact .inl ⟨x, rfl, ho, by simp [ho]⟩
      | false => exact .inr ⟨by simp [ho], by simp [ho]⟩

@[simp] lemma depth_assignable (t : SymbolTable) (n : String) :
    (t.assignable n).2.depth = t.depth := by
  rcases t.assignable_cases n with ⟨x, -, -, h⟩ | ⟨-, h⟩ <;> rw [h]
  rfl

end SymbolTable

namespace Emits

variable {part : Part} {d d' : Draft} {pos : Nat} {is : List Instr}

/-- Every function that is entered is left again. -/
lemma depth (h : Emits part d pos is d') : d'.symbols.depth = d.symbols.depth := by
  induction h with
  | ident resolved => exact SymbolTable.depth_resolve resolved
  | constant _ | immediate _ | noExprs | noPairs | noStmts => rfl
  | array _ ih | hash _ ih | unary _ _ ih | ret _ ih | expr _ ih | block _ ih | branch _ ih =>
      exact ih
  | function _ left _ _ _ _ _ ih =>
      have hin := ih.trans (SymbolTable.depth_entry _ _ _)
      have hout := (SymbolTable.depth_leave left).symm
      exact Nat.succ.inj (hout.trans hin)
  | binary _ _ _ ih ih' | swapped _ _ _ ih ih' | index _ _ ih ih' | call _ _ ih ih'
  | exprs _ _ ih ih'
  | stmts _ _ ih ih' => exact ih'.trans ih
  | cond _ _ _ ih ih' ih'' | pairs _ _ _ ih ih' ih'' | setIndex _ _ _ ih ih' ih'' =>
      exact ih''.trans (ih'.trans ih)
  | define _ ih => exact ih.trans (SymbolTable.depth_define _ _)
  | assign _ ih => exact ih.trans (SymbolTable.depth_assignable _ _)

end Emits

/-- How the code of a part ends.  That of an expression leaves its value and never pops it; where
statements end in `pop`, it is the one `pop` that belongs to the last of them, and the value that it
drops was pushed before it. -/
def Part.EndsIn : Part → List Instr → Prop
  | .expr _, is | .branch _, is => is ≠ [] ∧ lastOp is ≠ some .pop
  | .stmt _, is | .stmts _, is =>
      lastOp is = some .pop → ∃ init, is = init ++ [.pop] ∧ init ≠ [] ∧ lastOp init ≠ some .pop
  | .exprs _, _ | .pairs _, _ => True

/-- Another instruction at the end ends in no `pop`. -/
lemma endsIn_of_op (is : List Instr) {i : Instr} (h : i.op ≠ .pop) :
    is ++ [i] ≠ [] ∧ lastOp (is ++ [i]) ≠ some .pop := by
  simp [h]

/-- The branch that comes of statements. -/
lemma asBranch_cases {ss : List Stmt} {is : List Instr} (h : Part.EndsIn (.stmts ss) is) :
    (∃ init, is = init ++ [.pop] ∧ init ≠ [] ∧ lastOp init ≠ some .pop ∧ asBranch is = init) ∨
      (lastOp is ≠ some .pop ∧ asBranch is = is ++ [.plain .pushNil]) := by
  by_cases hp : lastOp is = some .pop
  · obtain ⟨init, rfl, hne, hinit⟩ := h hp
    exact .inl ⟨init, rfl, hne, hinit, by rw [asBranch, if_pos hp, List.dropLast_concat]⟩
  · exact .inr ⟨hp, by rw [asBranch, if_neg hp]⟩

namespace Emits

variable {part : Part} {d d' : Draft} {pos : Nat} {is : List Instr}

/-- The induction is over the code; every part ends as its kind says. -/
lemma endsIn (h : Emits part d pos is d') : part.EndsIn is := by
  induction h with
  | ident _ => exact endsIn_of_op [] (Symbol.loadInstr_ne_pop _)
  | constant _ => exact endsIn_of_op [] (by simp)
  | immediate literal =>
      refine endsIn_of_op [] ?_
      rename_i e op _ _
      cases e <;> try cases literal
      · rename_i b
        cases b <;> cases literal <;> simp
      · simp
  | array _ _ | hash _ _ | function _ _ _ _ _ _ _ _ | index _ _ _ _ | call _ _ _ _ =>
      exact endsIn_of_op _ (by simp)
  | unary known _ _ =>
      refine endsIn_of_op _ ?_
      rintro rfl
      cases Operator.isUnary_of_unary? known
  | binary known _ _ _ _ | swapped known _ _ _ _ =>
      refine endsIn_of_op _ ?_
      rintro rfl
      cases Operator.isBinary_of_binary? known
  | cond _ _ _ _ _ ih =>
      obtain ⟨hne, hlast⟩ := ih
      refine ⟨by simp, ?_⟩
      rwa [lastOp_append _ (List.cons_ne_nil _ _),
        lastOp_cons _ (List.append_ne_nil_of_right_ne_nil _ (List.cons_ne_nil _ _)),
        lastOp_append _ (List.cons_ne_nil _ _), lastOp_cons _ hne]
  | noExprs | noPairs | exprs _ _ _ _ | pairs _ _ _ _ _ _ => trivial
  | define _ _ | assign _ _ =>
      intro hpop
      rw [lastOp_append_singleton, Option.some.injEq] at hpop
      exact absurd hpop (Symbol.storeInstr_ne_pop _)
  | setIndex _ _ _ _ _ _ | ret _ _ =>
      intro hpop
      rw [lastOp_append_singleton] at hpop
      cases hpop
  | expr _ ih => exact fun _ => ⟨_, rfl, ih⟩
  | block _ ih => exact ih
  | noStmts => intro hpop; cases hpop
  | @stmts _ _ _ _ is _ is' _ _ _ ih ih' =>
      rcases eq_or_ne is' [] with rfl | hne
      · rw [List.append_nil]
        exact ih
      · intro hpop
        rw [lastOp_append _ hne] at hpop
        obtain ⟨init, rfl, hinit, hlast⟩ := ih' hpop
        refine ⟨is ++ init, by rw [List.append_assoc], by simp [hinit], ?_⟩
        rwa [lastOp_append _ hinit]
  | branch _ ih =>
      rcases asBranch_cases ih with ⟨init, -, hne, hlast, heq⟩ | ⟨-, heq⟩ <;> rw [heq]
      · exact ⟨hne, hlast⟩
      · exact endsIn_of_op _ (by simp)

/-- A program that ends in an expression drops the value of it at the end. -/
lemma ends_in_pop {ss : List Stmt} {e : Expr} (h : Emits (.stmts (ss ++ [.expr e])) d pos is d') :
    ∃ init, is = init ++ [.pop] := by
  induction ss generalizing d pos is with
  | nil =>
      cases h with
      | stmts hs hnone =>
          cases hs with
          | expr =>
              cases hnone
              exact ⟨_, List.append_nil _⟩
  | cons s ss ih =>
      cases h with
      | stmts hs hss =>
          obtain ⟨init, rfl⟩ := ih hss
          exact ⟨_, (List.append_assoc _ _ _).symm⟩

end Emits

end Marmoset
