import Marmoset.Proofs.SafeSessions

/-!
# Slots and the names they are for

A name that is bound at the top level gets the next slot, and the symbol stays in the table also
when a later binding hides it.  So the table tells for each slot the name that it was given to, and
every store in compiled code goes to a slot of the name for which it was written.

* `Scope.defineGlobals` — what compiling can do to the scope of the top level (`Emits.outermost`).
* `Part.stores` — the names to which the code of a part stores, in the order of the code.
* **`Emits.serves`** — each store goes to a slot of its name: a global at the top level, and a local
  in functions.
* `Session.Reached.sparesGlobals` — so no function of a session stores to a global.
-/

namespace Marmoset

/-! ## The scope of the top level -/

namespace Scope

/-- The scope of the top level, with a name bound to the next slot. -/
def defineGlobal (s : Scope) (name : String) : Scope :=
  { s.bind ⟨name, .global, s.definitions⟩ with definitions := s.definitions + 1 }

/-- The scope of the top level, with names bound one after the other. -/
def defineGlobals (s : Scope) (names : List String) : Scope :=
  names.foldl defineGlobal s

variable (s : Scope) (name : String) (names : List String)

@[simp] lemma defineGlobals_nil : s.defineGlobals [] = s := rfl

@[simp] lemma defineGlobals_cons :
    s.defineGlobals (name :: names) = (s.defineGlobal name).defineGlobals names := rfl

/-- Names that are bound in two goes. -/
lemma defineGlobals_append (names' : List String) :
    s.defineGlobals (names ++ names') = (s.defineGlobals names).defineGlobals names' :=
  List.foldl_append

/-- Symbols stay in the table. -/
lemma symbols_defineGlobals : s.symbols <:+ (s.defineGlobals names).symbols := by
  induction names generalizing s with
  | nil => exact List.suffix_rfl
  | cons n ns ih => exact (List.suffix_cons _ _).trans (ih (s.defineGlobal n))

end Scope

namespace SymbolTable

variable {t t' : SymbolTable}

/-- At the top level the outermost scope is the one at hand. -/
lemma outermost_of_global (h : t.outer = []) : t.outermost = t.current := by
  rw [outermost, h]
  rfl

/-- A name that is bound at the top level gets the next slot; one that is bound in a function does
not change the top level. -/
lemma outermost_define (t : SymbolTable) (n : String) :
    (t.define n).2.outermost = if t.outer = [] then t.outermost.defineGlobal n
      else t.outermost := by
  obtain ⟨s, os⟩ := t
  cases os with
  | nil => rfl
  | cons o os =>
      rw [if_neg (by simp), outermost_cons]
      exact outermost_cons _ o os

/-- Nothing is captured at the top level. -/
lemma outermost_resolveIn {n : String} {s s' : Scope} {os os' : List Scope} {x : Symbol}
    (h : resolveIn n s os = some (x, s', os')) : outermost ⟨s', os'⟩ = outermost ⟨s, os⟩ := by
  induction os generalizing s s' os' x with
  | nil =>
      rcases resolveIn_cases h with ⟨-, rfl, rfl⟩ | ⟨o, ol, o', ol', y, he, -⟩
      · rfl
      · cases he
  | cons o ol ih =>
      rcases resolveIn_cases h with ⟨-, rfl, rfl⟩ | ⟨o, ol, o', ol', y, he, rfl, -, ho, -⟩
      · rfl
      · cases he
        rw [outermost_cons, outermost_cons, ih ho]

/-- Looking up a name changes no more than captures. -/
lemma outermost_resolve {n : String} {x : Symbol} (h : t.resolve n = some (x, t')) :
    t'.outermost = t.outermost :=
  outermost_resolveIn (resolve_eq_some h)

/-- `t'` has the top level of `t`, with some more names. -/
def Extends (t t' : SymbolTable) : Prop :=
  ∃ names, t'.outermost = t.outermost.defineGlobals names

namespace Extends

/-- A table extends another one that has the same top level. -/
lemma of_eq (h : t'.outermost = t.outermost) : t.Extends t' :=
  ⟨[], h⟩

/-- What is bound in two goes. -/
lemma trans {t'' : SymbolTable} (h : t.Extends t') (h' : t'.Extends t'') : t.Extends t'' := by
  obtain ⟨names, h⟩ := h
  obtain ⟨names', h'⟩ := h'
  exact ⟨names ++ names', by rw [h', h, Scope.defineGlobals_append]⟩

/-- At the top level a definition adds its name; inside a function it adds nothing there. -/
lemma define (t : SymbolTable) (n : String) : t.Extends (t.define n).2 := by
  rw [Extends, outermost_define]
  split_ifs
  · exact ⟨[n], rfl⟩
  · exact ⟨[], rfl⟩

/-- At the top level an assignment adds its name, if there is no slot for it yet. -/
lemma assignable (t : SymbolTable) (n : String) : t.Extends (t.assignable n).2 := by
  rcases t.assignable_cases n with ⟨x, -, -, h⟩ | ⟨-, h⟩ <;> rw [h]
  · exact .of_eq rfl
  · exact define t n

/-- Names that were bound are in the table. -/
lemma symbols (h : t.Extends t') : t.outermost.symbols <:+ t'.outermost.symbols := by
  obtain ⟨names, h⟩ := h
  rw [h]
  exact Scope.symbols_defineGlobals _ _

end Extends

end SymbolTable

/-- Whatever is compiled, names are only added to the top level. -/
lemma Emits.extends {part : Part} {d d' : Draft} {pos : Nat} {is : List Instr}
    (h : Emits part d pos is d') :
    d.symbols.Extends d'.symbols := by
  induction h with
  | ident resolved => exact .of_eq (SymbolTable.outermost_resolve resolved)
  | constant _ | immediate _ | noExprs | noPairs | noStmts => exact .of_eq rfl
  | array _ ih | hash _ ih | unary _ _ ih | ret _ ih | expr _ ih | block _ ih | branch _ ih =>
      exact ih
  | function _ left _ _ _ _ _ ih =>
      obtain ⟨names, ih⟩ := ih
      rw [SymbolTable.outermost_entry] at ih
      exact ⟨names, (SymbolTable.outermost_leave left).trans ih⟩
  | binary _ _ _ ih ih' | swapped _ _ _ ih ih' | index _ _ ih ih' | call _ _ ih ih'
  | exprs _ _ ih ih'
  | stmts _ _ ih ih' => exact ih.trans ih'
  | cond _ _ _ ih ih' ih'' | pairs _ _ _ ih ih' ih'' | setIndex _ _ _ ih ih' ih'' =>
      exact (ih.trans ih').trans ih''
  | define _ ih => exact (SymbolTable.Extends.define _ _).trans ih
  | assign _ ih => exact (SymbolTable.Extends.assignable _ _).trans ih

/-! ## The names for which code stores -/

/-- Whether an instruction stores to the slot of a name. -/
def Instr.stores (i : Instr) : Bool :=
  i.op == .setGlobal || i.op == .setLocal

mutual

/-- The names to which the code of an expression stores.  Functions have code of their own. -/
def Expr.stores : Expr → List String
  | .array items => Expr.storesAll items
  | .hash pairs => (byText (Expr.storesPairs pairs)).flatMap Prod.snd
  | .unary _ right => right.stores
  | .binary op left right =>
    match Operator.binary? op with
    | some (_, true) => right.stores ++ left.stores
    | _ => left.stores ++ right.stores
  | .index left index => left.stores ++ index.stores
  | .cond condition yes none => condition.stores ++ Stmt.storesAll yes
  | .cond condition yes (some no) => condition.stores ++ Stmt.storesAll yes ++ Stmt.storesAll no
  | .call callee args => callee.stores ++ Expr.storesAll args
  | _ => []
termination_by structural e => e

/-- The names to which the code of a statement stores. -/
def Stmt.stores : Stmt → List String
  | .define name value => value.stores ++ [name]
  | .assign (.ident name) value => value.stores ++ [name]
  | .assign (.index left index) value => left.stores ++ index.stores ++ value.stores
  | .assign _ _ => []
  | .ret value => value.stores
  | .expr e => e.stores
  | .block body => Stmt.storesAll body
termination_by structural s => s

def Expr.storesAll : List Expr → List String
  | [] => []
  | e :: es => e.stores ++ Expr.storesAll es
termination_by structural es => es

/-- The text of each key, and the names to which the code of the pair stores. -/
def Expr.storesPairs : List (Expr × Expr) → List (String × List String)
  | [] => []
  | (k, v) :: ps => (k.text, k.stores ++ v.stores) :: Expr.storesPairs ps
termination_by structural ps => ps

def Stmt.storesAll : List Stmt → List String
  | [] => []
  | s :: ss => s.stores ++ Stmt.storesAll ss
termination_by structural ss => ss

end

/-- The names to which the code of a part stores, in the order of the code. -/
def Part.stores : Part → List String
  | .expr e => e.stores
  | .exprs es => Expr.storesAll es
  | .pairs ps => ps.flatMap fun p => p.1.stores ++ p.2.stores
  | .stmt s => s.stores
  | .stmts ss | .branch ss => Stmt.storesAll ss

/-- The code of a hash stores in the order in which its pairs are compiled. -/
lemma Expr.stores_hash (pairs : List (Expr × Expr)) :
    Expr.stores (.hash pairs) = Part.stores (.pairs (sortedPairs pairs)) := by
  have hpairs : Expr.storesPairs pairs = pairs.map fun p =>
    (p.1.text, p.1.stores ++ p.2.stores) := by
    induction pairs with
    | nil => rfl
    | cons p ps ih =>
        rw [Expr.storesPairs, ih]
        rfl
  rw [Expr.stores, hpairs, Part.stores, List.flatMap_def, List.flatMap_def, byText_pairs]

/-- A literal stores to nothing. -/
lemma Expr.stores_of_literal {e : Expr}
    (h : e.constant?.isSome = true ∨ e.immediate?.isSome = true) : e.stores = [] := by
  cases e with
  | integer _ | float _ | string _ | boolean _ | nil => rfl
  | _ => simp [Expr.constant?, Expr.immediate?] at h

lemma Symbol.stores_loadInstr (x : Symbol) : x.loadInstr.stores = false := by
  unfold loadInstr
  cases x.kind <;> rfl

lemma Symbol.stores_storeInstr (x : Symbol) : x.storeInstr.stores = true := by
  unfold storeInstr
  cases x.kind <;> rfl

lemma Opcode.stores_of_plain {op : Opcode}
    (h : op.isUnary = true ∨ op.isBinary = true ∨ ∃ e : Expr, e.immediate? = some op) :
    (Instr.plain op).stores = false := by
  rcases h with h | h | ⟨e, h⟩
  · cases op <;> first | rfl | cases h
  · cases op <;> first | rfl | cases h
  · unfold Expr.immediate? at h
    split at h <;> first | (cases h; rfl) | cases h

/-- The value that a branch leaves is not stored. -/
lemma filter_stores_asBranch {ss : List Stmt} {is : List Instr}
    (hend : Part.EndsIn (.stmts ss) is) :
    (asBranch is).filter Instr.stores = is.filter Instr.stores := by
  unfold asBranch
  split_ifs with hp
  · obtain ⟨init, rfl, -⟩ := hend hp
    rw [List.dropLast_concat, List.filter_append]
    exact (List.append_nil _).symm
  · rw [List.filter_append]
    exact List.append_nil _

namespace SymbolTable

/-- The instruction stores to a slot that was given to the name. -/
inductive Serves (t : SymbolTable) : Instr → String → Prop where
  | global {n : String} {index : Nat} (top : t.outer = [])
      (given : ⟨n, .global, index⟩ ∈ t.outermost.symbols) :
      Serves t ⟨.setGlobal, [index]⟩ n
  | local {n : String} {index : Nat} (inside : t.outer ≠ []) : Serves t ⟨.setLocal, [index]⟩ n

/-- A slot that was given to a name goes on to be its slot. -/
lemma Serves.mono {t t' : SymbolTable} {i : Instr} {n : String} (h : t.Serves i n)
    (ho : t.outer = [] ↔ t'.outer = []) (he : t.Extends t') : t'.Serves i n := by
  cases h with
  | global top given => exact .global (ho.mp top) (he.symbols.subset given)
  | «local» inside => exact .local fun h => inside (ho.mpr h)

/-- What a name is bound to in the scope itself is a slot of that name. -/
lemma Proper.serves {k : Nat} {t : SymbolTable} {n : String} {x : Symbol} (hp : t.Proper k)
    (hx : t.current.find? n = some x) (ho : x.kind.owned = true) : t.Serves x.storeInstr n := by
  have hname := Scope.name_of_find? hx
  have hmem : x ∈ t.current.symbols := List.mem_of_find?_eq_some hx
  obtain ⟨s, os⟩ := t
  obtain ⟨name, kind, index⟩ := x
  cases hname
  cases os with
  | nil =>
      rcases hp _ _ hx with hk | ⟨hk, -⟩
      · cases hk
        exact .global rfl hmem
      · cases hk
        cases ho
  | cons o os =>
      have hk : kind.reachable = false := hp.1 _ _ hx
      cases kind with
      | «local» => exact .local (by simp)
      | global | builtin => cases hk
      | free | function => cases ho

end SymbolTable

/-- An instruction that does not store does not count. -/
lemma Instr.filter_stores_concat (is : List Instr) {i : Instr} (h : i.stores = false) :
    (is ++ [i]).filter stores = is.filter stores := by
  rw [List.filter_append, List.filter_cons_of_neg (by simp [h]), List.filter_nil, List.append_nil]

/-- What was stored to before goes on to be a slot of its name. -/
lemma Emits.serves_append {part : Part} {d d' : Draft} {pos : Nat} {is js ks : List Instr}
    {names names' : List String} (h : Emits part d pos is d')
    (hs : List.Forall₂ d.symbols.Serves js names) (hs' : List.Forall₂ d'.symbols.Serves ks names') :
    List.Forall₂ d'.symbols.Serves (js ++ ks) (names ++ names') :=
  List.rel_append (hs.imp fun _ _ hi => hi.mono h.grows.outer_eq_nil h.extends) hs'

/-- **Every store goes to a slot of its name.** -/
theorem Emits.serves {k : Nat} {part : Part} {d d' : Draft} {pos : Nat} {is : List Instr}
    (h : Emits part d pos is d') (hd : d.Good k) :
    List.Forall₂ d'.symbols.Serves (is.filter Instr.stores) part.stores := by
  induction h with
  | @ident name x t d pos resolved =>
      rw [List.filter_cons_of_neg (by simp [Symbol.stores_loadInstr])]
      exact .nil
  | @constant e c d pos literal =>
      rw [Part.stores, Expr.stores_of_literal (.inl (by rw [literal]; rfl))]
      exact .nil
  | @immediate e op d pos literal =>
      rw [Part.stores, Expr.stores_of_literal (.inr (by rw [literal]; rfl)),
        List.filter_cons_of_neg (by simp [Opcode.stores_of_plain (.inr (.inr ⟨e, literal⟩))])]
      exact .nil
  | noExprs | noPairs | noStmts => exact .nil
  | block _ ih => exact ih hd
  | branch hbody ih =>
      -- the value at the end of a branch is left on the stack and not stored
      rw [filter_stores_asBranch hbody.endsIn]
      exact ih hd
  | array _ ih | ret _ ih | expr _ ih =>
      rw [Instr.filter_stores_concat _ rfl]
      exact ih hd
  | @hash pairs _ _ _ _ _ ih =>
      rw [Instr.filter_stores_concat _ rfl, Part.stores, Expr.stores_hash]
      exact ih hd
  | unary known _ ih =>
      rw [Instr.filter_stores_concat _
        (Opcode.stores_of_plain (.inl (Operator.isUnary_of_unary? known)))]
      exact ih hd
  | function =>
      rw [Instr.filter_stores_concat _ rfl, List.filter_eq_nil_iff.mpr]
      · exact .nil
      · intro i hi
        obtain ⟨y, -, rfl⟩ := List.mem_map.mp hi
        simp [Symbol.stores_loadInstr]
  | @binary op code left right _ _ _ _ _ _ known hleft hright ih ih' =>
      have hd₁ := (hleft.good hd).1
      have hplain := Opcode.stores_of_plain (.inr (.inl (Operator.isBinary_of_binary? known)))
      rw [Instr.filter_stores_concat _ hplain, List.filter_append]
      have hstores : Part.stores (.expr (.binary op left right)) = left.stores ++ right.stores := by
        simp [Part.stores, Expr.stores, known]
      rw [hstores]
      exact hright.serves_append (ih hd) (ih' hd₁)
  | @swapped op code left right _ _ _ _ _ _ known hright hleft ih ih' =>
      have hd₁ := (hright.good hd).1
      have hplain := Opcode.stores_of_plain (.inr (.inl (Operator.isBinary_of_binary? known)))
      rw [Instr.filter_stores_concat _ hplain, List.filter_append]
      have hstores : Part.stores (.expr (.binary op left right)) = right.stores ++ left.stores := by
        simp [Part.stores, Expr.stores, known]
      rw [hstores]
      exact hleft.serves_append (ih hd) (ih' hd₁)
  | index hfirst hsecond ih ih' | call hfirst hsecond ih ih' =>
      rw [Instr.filter_stores_concat _ rfl, List.filter_append]
      exact hsecond.serves_append (ih hd) (ih' (hfirst.good hd).1)
  | exprs hfirst hsecond ih ih' | stmts hfirst hsecond ih ih' =>
      rw [List.filter_append]
      exact hsecond.serves_append (ih hd) (ih' (hfirst.good hd).1)
  | @cond condition yes no _ _ _ _ _ _ _ _ hcond hyes hno ih ih' ih'' =>
      have hd₁ := (hcond.good hd).1
      rw [List.filter_append, List.filter_cons_of_neg (by simp [Instr.stores]), List.filter_append,
        List.filter_cons_of_neg (by simp [Instr.stores]), ← List.append_assoc]
      have hstores : Part.stores (.expr (.cond condition yes no)) =
          condition.stores ++ Stmt.storesAll yes ++ Stmt.storesAll (no.getD []) := by
        cases no with
        | none => exact (List.append_nil _).symm
        | some no => rfl
      rw [hstores]
      exact hno.serves_append (hyes.serves_append (ih hd) (ih' hd₁)) (ih'' (hyes.good hd₁).1)
  | pairs hkey hvalue htail ih ih' ih'' =>
      have hd₁ := (hkey.good hd).1
      rw [List.filter_append, List.filter_append]
      exact htail.serves_append (hvalue.serves_append (ih hd) (ih' hd₁)) (ih'' (hvalue.good hd₁).1)
  | setIndex hleft hindex hvalue ih ih' ih'' =>
      have hd₁ := (hleft.good hd).1
      rw [Instr.filter_stores_concat _ rfl, List.filter_append, List.filter_append]
      exact hvalue.serves_append (hindex.serves_append (ih hd) (ih' hd₁)) (ih'' (hindex.good hd₁).1)
  | @define name value d _ _ _ hvalue ih =>
      have hd₁ := hd.define name
      obtain ⟨hx, ho⟩ := d.symbols.find?_of_define name
      have hstore := (hd₁.proper.serves hx ho).mono hvalue.grows.outer_eq_nil hvalue.extends
      rw [List.filter_append, List.filter_cons_of_pos (Symbol.stores_storeInstr _)]
      exact List.rel_append (ih hd₁) (.cons hstore .nil)
  | @assign name value d _ _ _ hvalue ih =>
      have hd₁ := hd.assignable name
      obtain ⟨hx, ho⟩ := d.symbols.find?_of_assignable name
      have hstore := (hd₁.proper.serves hx ho).mono hvalue.grows.outer_eq_nil hvalue.extends
      rw [List.filter_append, List.filter_cons_of_pos (Symbol.stores_storeInstr _)]
      exact List.rel_append (ih hd₁) (.cons hstore .nil)

/-! ## Functions leave the globals alone -/

/-- No instruction of the function stores to a global. -/
def CompiledFunction.SparesGlobals (fn : CompiledFunction) : Prop :=
  ∀ is, fn.code.Reads is → ∀ i ∈ is, i.op ≠ .setGlobal

/-- No function of the pool stores to a global. -/
def Draft.SparesGlobals (d : Draft) : Prop :=
  ∀ fn, Constant.function fn ∈ d.constants → fn.SparesGlobals

/-- Lists that correspond, from one of the first. -/
lemma forall₂_exists_of_mem {α β : Type} {R : α → β → Prop} {xs : List α} {ys : List β}
    (h : List.Forall₂ R xs ys) {a : α} (ha : a ∈ xs) : ∃ b ∈ ys, R a b := by
  induction h with
  | nil => cases ha
  | cons hr _ ih =>
      rcases List.mem_cons.mp ha with rfl | ha
      · exact ⟨_, List.mem_cons_self, hr⟩
      · obtain ⟨b, hb, hab⟩ := ih ha
        exact ⟨b, List.mem_cons_of_mem _ hb, hab⟩

/-- Inside a function no global is stored to. -/
lemma Emits.op_ne_setGlobal {k : Nat} {part : Part} {d d' : Draft} {pos : Nat} {is : List Instr}
    (h : Emits part d pos is d') (hd : d.Good k) (hin : d.symbols.outer ≠ []) :
    ∀ i ∈ is, i.op ≠ .setGlobal := by
  intro i hi hop
  have hstores : i ∈ is.filter Instr.stores :=
    List.mem_filter.mpr ⟨hi, by rw [Instr.stores, hop]; rfl⟩
  obtain ⟨n, -, hn⟩ := forall₂_exists_of_mem (h.serves hd) hstores
  cases hn with
  | global top _ => exact hin (h.grows.outer_eq_nil.mpr top)
  | «local» _ => cases hop

/-- So no code that is compiled adds such a function to the pool. -/
lemma Emits.sparesGlobals {k : Nat} {part : Part} {d d' : Draft} {pos : Nat} {is : List Instr}
    (h : Emits part d pos is d') (hd : d.Good k) (hs : d.SparesGlobals) : d'.SparesGlobals := by
  induction h with
  | ident _ | immediate _ | noExprs | noPairs | noStmts => exact hs
  | @constant e c _ _ literal =>
      intro fn hfn
      rcases Array.mem_push.mp hfn with hfn | rfl
      · exact hs fn hfn
      · cases e <;> cases literal
  | array _ ih | hash _ ih | unary _ _ ih | ret _ ih | expr _ ih | block _ ih | branch _ ih =>
      exact ih hd hs
  | @function name params body d pos is t pool _ t' fn hbody left fits code locals arity _ ih =>
      have hd₁ := hd.entry name params
      intro fn' hfn
      rcases Array.mem_push.mp hfn with hfn | hfn
      · exact ih hd₁ hs fn' hfn
      · cases hfn
        intro js hjs i hi
        rw [hjs.unique ⟨code, fits⟩] at hi
        rcases mem_asBody hi with hi | rfl | rfl
        · exact hbody.op_ne_setGlobal hd₁ (by simp) i hi
        · simp
        · simp
  | binary _ hfirst _ ih ih' | swapped _ hfirst _ ih ih' | index hfirst _ ih ih'
  | call hfirst _ ih ih'
  | exprs hfirst _ ih ih' | stmts hfirst _ ih ih' => exact ih' (hfirst.good hd).1 (ih hd hs)
  | cond hfirst hsecond _ ih ih' ih'' | pairs hfirst hsecond _ ih ih' ih''
  | setIndex hfirst hsecond _ ih ih' ih'' =>
      have hd₁ := (hfirst.good hd).1
      exact ih'' (hsecond.good hd₁).1 (ih' hd₁ (ih hd hs))
  | define _ ih => exact ih (hd.define _) hs
  | assign _ ih => exact ih (hd.assignable _) hs

/-- Nor does what opens a program. -/
lemma Opens.sparesGlobals {k : Nat} {d d' : Draft} (h : Opens d d') (hd : d.Good k)
    (hs : d.SparesGlobals) :
    d'.SparesGlobals := by
  induction h with
  | here => exact hs
  | emitted h _ ih => exact ih (h.good hd).1 (h.sparesGlobals hd hs)
  | defined _ ih => exact ih (hd.define _) hs
  | entered _ ih => exact ih (hd.entry _ _) hs
  | left h _ ih => exact ih (hd.leave h) hs

/-- A compiler that is ready stays so, also if it fails in the middle. -/
lemma Compiler.Ready.sparesGlobals {k : Nat} {c : Compiler} (h : c.Ready k)
    (hs : c.draft.SparesGlobals) (p : Program) :
    (c.compile p).2.draft.SparesGlobals := by
  obtain ⟨base, hb⟩ := h.tracks
  have hlays := Stmt.lays_compileAll p (h.at hb)
  unfold Compile.Ends at hlays
  unfold Compiler.compile
  cases hrun : Stmt.compileAll p c with
  | ok u c' =>
      rw [hrun] at hlays
      obtain ⟨is, d', hem, hc'⟩ := hlays
      have hpool : d'.constants = c'.constants := hc'.constants.symm
      intro fn hfn
      exact hem.sparesGlobals h.good hs fn (by rw [hpool]; exact hfn)
  | error e c' =>
      rw [hrun] at hlays
      exact hlays.1.sparesGlobals h.good hs

/-- The functions of a session leave the globals alone. -/
lemma Session.Reached.sparesGlobals {limits : Limits} {s : Session} (h : Reached limits s)
    (hl : limits.areFeasible = true) : s.compiler.draft.SparesGlobals := by
  have compile {s : Session} (hs : s.InOrder limits) (hd : s.compiler.draft.SparesGlobals)
      (source : String) :
      (s.compile source).2.compiler.draft.SparesGlobals := by
    rcases s.compile_cases source with ⟨e, he⟩ | ⟨p, -, ⟨-, he⟩ | ⟨e, he⟩⟩ <;> rw [he]
    · exact hd
    · exact hs.ready.sparesGlobals hd p
    · exact hs.ready.sparesGlobals hd p
  induction h with
  | start => exact fun fn hfn => absurd hfn (Array.not_mem_empty _)
  | compile h source ih => exact compile (h.inOrder hl) ih source
  | eval h source ih =>
      rw [compiler_eval]
      exact compile (h.inOrder hl) ih source

end Marmoset
