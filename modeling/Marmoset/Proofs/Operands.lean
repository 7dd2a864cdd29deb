import Marmoset.Proofs.Balance

/-!
# What operands refer to

Every operand of compiled code refers to something that is there: a constant of the right kind, a
slot of the function, a captured value, a global, a builtin.

What is there only grows while a program is compiled (`Draft.Grows`), so that an operand which was
right when it was written stays right (`Instr.InRange.mono`).  A draft is in order (`Draft.Good`) if
its table is and if the functions of its pool are well formed; compiling keeps that
(**`Emits.good`**), also where it stops with an error (`Opens.good`).
-/

namespace Marmoset

/-! ## Growth -/

namespace Scope

/-- What can happen to the scope that is compiled. -/
structure Grows (s s' : Scope) : Prop where
  definitions : s.definitions ≤ s'.definitions
  free : s.free <+: s'.free

/-- A scope that only captures gets no new slots. -/
lemma Captures.grows {s s' : Scope} (h : s.Captures s') : s.Grows s' :=
  ⟨Nat.le_of_eq h.definitions.symm, h.free⟩

lemma Grows.refl (s : Scope) : s.Grows s :=
  ⟨Nat.le_refl _, List.prefix_rfl⟩

lemma Grows.trans {s s' s'' : Scope} (h : s.Grows s') (h' : s'.Grows s'') : s.Grows s'' :=
  ⟨Nat.le_trans h.definitions h'.definitions, h.free.trans h'.free⟩

end Scope

/-- What happens to names and constants while a part is compiled. -/
structure Draft.Grows (d d' : Draft) : Prop where
  current : d.symbols.current.Grows d'.symbols.current
  outer : List.Forall₂ Scope.Captures d.symbols.outer d'.symbols.outer
  pool : d.constants.toList <+: d'.constants.toList

namespace Draft.Grows

lemma refl (d : Draft) : d.Grows d :=
  ⟨.refl _, Scope.forall₂_captures_refl _, List.prefix_rfl⟩

lemma trans {d d' d'' : Draft} (h : d.Grows d') (h' : d'.Grows d'') : d.Grows d'' :=
  ⟨h.current.trans h'.current, Scope.forall₂_captures_trans h.outer h'.outer, h.pool.trans h'.pool⟩

/-- A definition takes one more slot. -/
lemma define (d : Draft) (name : String) :
    d.Grows { d with symbols := (d.symbols.define name).2 } :=
  ⟨⟨Nat.le_succ _, List.prefix_rfl⟩, Scope.forall₂_captures_refl _, List.prefix_rfl⟩

/-- An assignment takes one more slot at most. -/
lemma assignable (d : Draft) (name : String) :
    d.Grows { d with symbols := (d.symbols.assignable name).2 } := by
  rcases d.symbols.assignable_cases name with ⟨x, -, -, h⟩ | ⟨-, h⟩ <;> rw [h]
  · exact .refl d
  · exact .define d name

/-- Looking up a name adds captured names, in this scope and in those around. -/
lemma resolve {d : Draft} {name : String} {x : Symbol} {t : SymbolTable}
    (h : d.symbols.resolve name = some (x, t)) : d.Grows { d with symbols := t } :=
  ⟨(SymbolTable.resolve_captures h).1.grows, (SymbolTable.resolve_captures h).2, List.prefix_rfl⟩

end Draft.Grows

@[simp] lemma SymbolTable.outer_entry (t : SymbolTable) (name : Option String)
    (params : List String) :
    (t.entry name params).outer = t.current :: t.outer := by
  have key (ps : List String) (u : SymbolTable) :
      (ps.foldl (fun t p => (t.define p).2) u).outer = u.outer := by
    induction ps generalizing u with
    | nil => rfl
    | cons p ps ih => exact (ih _).trans (SymbolTable.outer_define u p)
  unfold entry
  rw [key]
  cases name <;> rfl

/-- The parameters are the first slots of a function. -/
lemma SymbolTable.definitions_entry (t : SymbolTable) (name : Option String)
    (params : List String) :
    (t.entry name params).current.definitions = params.length := by
  have key (ps : List String) (u : SymbolTable) :
      (ps.foldl (fun t p => (t.define p).2) u).current.definitions = u.current.definitions +
        ps.length := by
    induction ps generalizing u with
    | nil => rfl
    | cons p ps ih =>
        rw [List.foldl_cons, ih, SymbolTable.definitions_define, List.length_cons]
        omega
  unfold entry
  rw [key]
  cases name <;> exact Nat.zero_add _

/-- Inside a function, the scopes around can only capture. -/
lemma SymbolTable.captures_of_leave {t t₁ t' : SymbolTable} {name : Option String}
    {params : List String} {summary : ScopeSummary}
    (hbody : List.Forall₂ Scope.Captures (t.entry name params).outer t₁.outer)
    (left : t₁.leave = some (summary, t')) :
    t.current.Captures t'.current ∧ List.Forall₂ Scope.Captures t.outer t'.outer := by
  obtain ⟨o, os, ho, rfl, -⟩ := leave_eq_some left
  rw [outer_entry, ho] at hbody
  exact ⟨(List.forall₂_cons.mp hbody).1, (List.forall₂_cons.mp hbody).2⟩

/-- Whatever is compiled, slots, captured names and constants are only added. -/
lemma Emits.grows {part : Part} {d d' : Draft} {pos : Nat} {is : List Instr}
    (h : Emits part d pos is d') :
    d.Grows d' := by
  induction h with
  | ident resolved => exact .resolve resolved
  | constant _ => exact ⟨.refl _, Scope.forall₂_captures_refl _, by simp⟩
  | immediate _ | noExprs | noPairs | noStmts => exact .refl _
  | array _ ih | hash _ ih | unary _ _ ih | ret _ ih | expr _ ih | block _ ih | branch _ ih =>
      exact ih
  | function _ left _ _ _ _ _ ih =>
      obtain ⟨hcur, hout⟩ := SymbolTable.captures_of_leave ih.outer left
      exact ⟨hcur.grows, hout, ih.pool.trans (by simp)⟩
  | binary _ _ _ ih ih' | swapped _ _ _ ih ih' | index _ _ ih ih' | call _ _ ih ih'
  | exprs _ _ ih ih'
  | stmts _ _ ih ih' => exact ih.trans ih'
  | cond _ _ _ ih ih' ih'' | pairs _ _ _ ih ih' ih'' | setIndex _ _ _ ih ih' ih'' =>
      exact (ih.trans ih').trans ih''
  | define _ ih => exact (Draft.Grows.define _ _).trans ih
  | assign _ ih => exact (Draft.Grows.assignable _ _).trans ih

/-! ## Operands in range -/

/-- A stream that is the writing of instructions. -/
structure Code.Reads (code : Code) (is : List Instr) : Prop where
  bytes : code.toList = bytesOf is
  fits : ∀ i ∈ is, i.Fits

/-- The positions in a listing do not hide which instructions are listed. -/
lemma linesFrom_injective {pos : Nat} {is js : List Instr}
    (h : linesFrom pos is = linesFrom pos js) : is = js := by
  induction is generalizing pos js with
  | nil =>
      cases js with
      | nil => rfl
      | cons j js => cases h
  | cons i is ih =>
      cases js with
      | nil => cases h
      | cons j js =>
          simp only [linesFrom, List.cons.injEq, Instruction.Line.instruction.injEq, true_and] at h
          obtain ⟨⟨hop, hoperands⟩, hrest⟩ := h
          have hij : i = j := by
            cases i; cases j
            simp only at hop hoperands
            rw [hop, hoperands]
          subst hij
          rw [ih hrest]

/-- A stream is the writing of one list of instructions only. -/
lemma Code.Reads.unique {code : Code} {is js : List Instr} (h : code.Reads is)
    (h' : code.Reads js) : is = js := by
  have hlines : linesFrom 0 is = linesFrom 0 js := by
    rw [← decode_bytesOf h.fits, ← decode_bytesOf h'.fits, ← h.bytes, h'.bytes]
  exact linesFrom_injective hlines

/-- A stream has as many bytes as its instructions take. -/
lemma Code.Reads.size {code : Code} {is : List Instr} (h : code.Reads is) :
    code.size = extent is := by
  rw [← Array.length_toList, h.bytes, length_bytesOf h.fits]

/-- The bytes of an instruction stand behind those of the instructions before it. -/
lemma Code.Reads.holds {code : Code} {before rest : List Instr} {i : Instr}
    (h : code.Reads (before ++ i :: rest)) :
    code.Holds (extent before) [i] := by
  have hall : code.Holds 0 (before ++ i :: rest) := .of_eq h.bytes
  have hright : code.Holds (0 + extent before) ([i] ++ rest) :=
    hall.right fun j hj => h.fits j (by simp [hj])
  rw [Nat.zero_add] at hright
  exact hright.left

/-- A jump has an operand. -/
lemma Instr.Fits.operands_ne_nil {i : Instr} (h : i.Fits) (hj : i.jumps = true) :
    i.operands ≠ [] := by
  intro ho
  have hlen := h.length_eq
  rw [ho] at hlen
  simp only [Instr.jumps, Bool.or_eq_true, beq_iff_eq] at hj
  rcases hj with hj | hj <;> rw [hj] at hlen <;> cases hlen

/-- The code of a function reads none but the first `n` captured values. -/
def CompiledFunction.FreeBelow (fn : CompiledFunction) (n : Nat) : Prop :=
  ∀ is, fn.code.Reads is → ∀ i ∈ is, i.op = .getFree → i.first < n

/-- What the operands of an instruction may refer to. -/
structure Room where
  pool : Array Constant
  builtins : Nat
  globals : Nat
  locals : Nat
  captured : Nat
  /-- Whether the instruction belongs to a function. -/
  inside : Bool

/-- The operands refer to what is there. -/
def Instr.InRange (r : Room) (i : Instr) : Prop :=
  match i.op with
  | .constant => ∃ k, r.pool[i.first]? = some k ∧ ∀ fn, k ≠ .function fn
  | .closure => ∃ fn, r.pool[i.first]? = some (.function fn) ∧ fn.FreeBelow i.second
  | .getLocal | .setLocal => i.first < r.locals
  | .getFree => i.first < r.captured
  | .getGlobal | .setGlobal => i.first < r.globals
  | .getBuiltin => i.first < r.builtins
  | .currentClosure | .returnNil => r.inside = true
  | _ => True

/-- All instructions of the code refer to what is there. -/
def AllInRange (r : Room) (is : List Instr) : Prop :=
  ∀ i ∈ is, i.InRange r

/-- There is at least as much. -/
structure Room.Le (r r' : Room) : Prop where
  pool : ∀ {n : Nat} {k}, r.pool[n]? = some k → r'.pool[n]? = some k
  builtins : r.builtins ≤ r'.builtins
  globals : r.globals ≤ r'.globals
  locals : r.locals ≤ r'.locals
  captured : r.captured ≤ r'.captured
  inside : r.inside = true → r'.inside = true

/-- What is there stays there when more is added, so operands stay in range. -/
lemma Instr.InRange.mono {r r' : Room} {i : Instr} (h : i.InRange r) (hr : r.Le r') :
    i.InRange r' := by
  obtain ⟨op, operands⟩ := i
  cases op with
  | constant =>
      obtain ⟨k, hk, hfn⟩ := h
      exact ⟨k, hr.pool hk, hfn⟩
  | closure =>
      obtain ⟨fn, hfn, hfree⟩ := h
      exact ⟨fn, hr.pool hfn, hfree⟩
  | getLocal | setLocal => exact Nat.lt_of_lt_of_le h hr.locals
  | getFree => exact Nat.lt_of_lt_of_le h hr.captured
  | getGlobal | setGlobal => exact Nat.lt_of_lt_of_le h hr.globals
  | getBuiltin => exact Nat.lt_of_lt_of_le h hr.builtins
  | currentClosure | returnNil => exact hr.inside h
  | _ => trivial

namespace AllInRange

variable {r r' : Room} {xs ys : List Instr} {i : Instr}

/-- So do those of all instructions together. -/
lemma mono (h : AllInRange r xs) (hr : r.Le r') : AllInRange r' xs :=
  fun i hi => (h i hi).mono hr

lemma nil : AllInRange r [] := by
  simp [AllInRange]

lemma append (hx : AllInRange r xs) (hy : AllInRange r ys) : AllInRange r (xs ++ ys) := by
  intro i hi
  rcases List.mem_append.mp hi with hi | hi
  · exact hx i hi
  · exact hy i hi

lemma cons (hi : i.InRange r) (hy : AllInRange r ys) : AllInRange r (i :: ys) := by
  intro j hj
  rcases List.mem_cons.mp hj with rfl | hj
  · exact hi
  · exact hy j hj

lemma single (hi : i.InRange r) : AllInRange r [i] :=
  .cons hi .nil

end AllInRange

/-- A function whose code is in order: whole and balanced, with a return at its end and operands
that refer to what is there. -/
structure CompiledFunction.WellFormed (pool : Array Constant) (builtins globals : Nat)
    (fn : CompiledFunction) :
    Prop where
  arity : fn.params ≤ fn.locals
  slots : fn.locals.toNat ≤ max fn.params.toNat 256
  code : ∃ is captured, fn.code.Reads is ∧ Balanced true 0 0 is ∧
    (∃ init i, is = init ++ [i] ∧ i.returns = true) ∧
    AllInRange ⟨pool, builtins, globals, fn.locals.toNat, captured, true⟩ is

/-- Constants keep their places. -/
lemma getElem?_of_pool {pool pool' : Array Constant} (h : pool.toList <+: pool'.toList) {n : Nat}
    {k : Constant} (hn : pool[n]? = some k) : pool'[n]? = some k := by
  obtain ⟨rest, hrest⟩ := h
  rw [← Array.getElem?_toList] at hn ⊢
  rw [← hrest, List.getElem?_append_left (List.getElem?_eq_some_iff.mp hn).1, hn]

/-- A function stays well formed when constants and globals are added. -/
lemma CompiledFunction.WellFormed.mono {pool pool' : Array Constant}
    {builtins globals globals' : Nat} {fn : CompiledFunction}
    (h : fn.WellFormed pool builtins globals) (hp : pool.toList <+: pool'.toList)
    (hg : globals ≤ globals') : fn.WellFormed pool' builtins globals' := by
  obtain ⟨harity, hslots, is, captured, hreads, hbal, hret, hrange⟩ := h
  refine ⟨harity, hslots, is, captured, hreads, hbal, hret,
    fun i hi => (hrange i hi).mono ⟨?_, ?_, hg, ?_, ?_, id⟩⟩
  · exact fun hk => getElem?_of_pool hp hk
  all_goals exact Nat.le_refl _

/-! ## Drafts in order -/

namespace Draft

/-- What operands may refer to, where the compiler stands. -/
def room (d : Draft) (builtins : Nat) : Room where
  pool := d.constants
  builtins := builtins
  globals := d.symbols.outermost.definitions
  locals := if d.symbols.outer = [] then 0 else d.symbols.current.definitions
  captured := d.symbols.current.free.length
  inside := !d.symbols.outer.isEmpty

/-- Names and constants in order. -/
structure Good (builtins : Nat) (d : Draft) : Prop where
  sound : d.symbols.Sound
  proper : d.symbols.Proper builtins
  pool : ∀ fn, Constant.function fn ∈ d.constants →
    fn.WellFormed d.constants builtins d.symbols.outermost.definitions

/-- Inside functions the top level gets no new slots, and outside it gets them itself. -/
lemma Grows.globals {d d' : Draft} (h : d.Grows d') :
    d.symbols.outermost.definitions ≤ d'.symbols.outermost.definitions := by
  obtain ⟨⟨s, os⟩, k⟩ := d
  obtain ⟨⟨s', os'⟩, k'⟩ := d'
  obtain ⟨hcur, hout, -⟩ := h
  cases hout with
  | nil => exact hcur.definitions
  | cons ho hos =>
      simp only [SymbolTable.outermost_cons]
      exact Nat.le_of_eq (SymbolTable.definitions_outermost ho hos).symm

/-- Compiling a part does not go into a function or out of one. -/
lemma Grows.outer_eq_nil {d d' : Draft} (h : d.Grows d') :
    d.symbols.outer = [] ↔ d'.symbols.outer = [] := by
  rw [← List.length_eq_zero_iff, ← List.length_eq_zero_iff, h.outer.length_eq]

/-- So what operands may refer to grows with the draft. -/
lemma Grows.room {d d' : Draft} (h : d.Grows d') (k : Nat) : (d.room k).Le (d'.room k) where
  pool hn := getElem?_of_pool h.pool hn
  builtins := Nat.le_refl _
  globals := h.globals
  locals := by
    simp only [Draft.room, h.outer_eq_nil]
    split_ifs
    · exact Nat.le_refl _
    · exact h.current.definitions
  captured := h.current.free.length_le
  inside := by
    have := h.outer_eq_nil
    simp only [Draft.room, Bool.not_eq_true', List.isEmpty_eq_false_iff]
    tauto

end Draft

/-- The instruction that loads a symbol refers to what is there, if the name was found. -/
lemma SymbolTable.Loadable.inRange {k : Nat} {t : SymbolTable} {x : Symbol} (h : Loadable k t x)
    (pool : Array Constant) : x.loadInstr.InRange (Draft.room ⟨t, pool⟩ k) := by
  unfold Symbol.loadInstr
  cases h with
  | global hk hi => rw [hk]; exact hi
  | builtin hk hi => rw [hk]; exact hi
  | slot ho hk hi =>
      rw [hk]
      show x.index < if t.outer = [] then 0 else t.current.definitions
      rwa [if_neg ho]
  | free _ hk hi => rw [hk]; exact hi
  | self ho hk =>
      rw [hk]
      show (!t.outer.isEmpty) = true
      simp [ho]

/-- What a name was bound to can be stored to. -/
lemma SymbolTable.Sound.storeInstr_inRange {k : Nat} {t : SymbolTable} {n : String} {x : Symbol}
    (hs : t.Sound) (hp : t.Proper k) (hx : t.current.find? n = some x) (ho : x.kind.owned = true)
    (pool : Array Constant) :
    x.storeInstr.InRange (Draft.room ⟨t, pool⟩ k) := by
  unfold Symbol.storeInstr
  cases loadable_of_find? hs hp hx with
  | global hk hi => rw [hk]; exact hi
  | builtin hk _ => rw [hk] at ho; cases ho
  | slot hout hk hi =>
      rw [hk]
      show x.index < if t.outer = [] then 0 else t.current.definitions
      rwa [if_neg hout]
  | free _ hk _ => rw [hk] at ho; cases ho
  | self _ hk => rw [hk] at ho; cases ho

namespace SymbolTable

/-- An assigned name is bound in the scope itself. -/
lemma find?_of_assignable (t : SymbolTable) (n : String) :
    (t.assignable n).2.current.find? n = some (t.assignable n).1 ∧
      (t.assignable n).1.kind.owned = true := by
  rcases t.assignable_cases n with ⟨x, hx, ho, h⟩ | ⟨-, h⟩ <;> rw [h]
  · exact ⟨hx, ho⟩
  · refine ⟨by rw [find?_define, if_pos rfl], ?_⟩
    rcases kind_define t n with ⟨-, hk⟩ | ⟨-, hk⟩ <;> rw [hk] <;> rfl

/-- So is a defined one. -/
lemma find?_of_define (t : SymbolTable) (n : String) :
    (t.define n).2.current.find? n = some (t.define n).1 ∧ (t.define n).1.kind.owned = true := by
  refine ⟨by rw [find?_define, if_pos rfl], ?_⟩
  rcases kind_define t n with ⟨-, hk⟩ | ⟨-, hk⟩ <;> rw [hk] <;> rfl

/-- Scopes stay sound when a function is entered; its parameters are defined in it. -/
lemma Sound.entry {t : SymbolTable} (h : t.Sound) (name : Option String) (params : List String) :
    (t.entry name params).Sound := by
  have key (ps : List String) {u : SymbolTable} (hu : u.Sound) :
      (ps.foldl (fun t p => (t.define p).2) u).Sound := by
    induction ps generalizing u with
    | nil => exact hu
    | cons p ps ih => exact ih (hu.define p)
  cases name with
  | none => exact key params h.enter
  | some n => exact key params (h.enter.bind_function n)

/-- Names stay proper when a function is entered. -/
lemma Proper.entry {k : Nat} {t : SymbolTable} (h : t.Proper k) (name : Option String)
    (params : List String) :
    (t.entry name params).Proper k := by
  have key (ps : List String) {u : SymbolTable} (hu : u.Proper k) :
      (ps.foldl (fun t p => (t.define p).2) u).Proper k := by
    induction ps generalizing u with
    | nil => exact hu
    | cons p ps ih => exact ih (hu.define p)
  cases name with
  | none => exact key params h.enter
  | some n => exact key params (Proper.bind_function h.enter (by simp) n)

/-- Entering a function leaves the top level what it is. -/
lemma outermost_entry (t : SymbolTable) (name : Option String) (params : List String) :
    (t.entry name params).outermost = t.outermost := by
  have h := outer_entry t name params
  obtain ⟨s, os⟩ := t
  cases he : (SymbolTable.mk s os).entry name params with
  | mk c o =>
      rw [he] at h
      simp only at h
      rw [h, outermost_cons]

/-- Leaving a function does not change the scope of the top level. -/
lemma outermost_leave {t t' : SymbolTable} {summary : ScopeSummary}
    (h : t.leave = some (summary, t')) :
    t'.outermost = t.outermost := by
  obtain ⟨o, os, ho, rfl, -⟩ := leave_eq_some h
  obtain ⟨s, os'⟩ := t
  cases ho
  rw [outermost_cons]

end SymbolTable

/-! ## Compiling keeps drafts in order -/

/-- Counts are kept in words; one that is too large becomes the largest word. -/
lemma toNat_wordCount (n : Nat) : (wordCount n).toNat = min n 18446744073709551615 := by
  unfold wordCount
  by_cases h : n < UInt64.size
  · rw [UInt64.toNat_ofNatClamp_of_lt h]
    simp only [UInt64.size] at h
    omega
  · rw [UInt64.ofNatClamp, dif_neg h, UInt64.toNat_ofNatLT]
    simp only [UInt64.size] at h ⊢
    omega

/-- Operands of instructions that fit have two bytes at most. -/
lemma Instr.Fits.first_lt {i : Instr} (h : i.Fits) : i.first < 65536 := by
  rcases h.cases with ⟨-, -, ho⟩ | ⟨a, ha, -, -, ho⟩ | ⟨a, ha, -, -, ho⟩
    | ⟨a, ha, b, -, -, -, ho⟩ <;>
    simp only [first, ho, List.getD_nil, List.getD_cons_zero] <;> omega

/-- The number of slots is kept in a word, which is more than an operand can count. -/
lemma Instr.InRange.clamp {r : Room} {i : Instr} (h : i.InRange r) (hf : i.Fits) :
    i.InRange { r with locals := (wordCount r.locals).toNat } := by
  have hlt := hf.first_lt
  obtain ⟨op, operands⟩ := i
  cases op with
  | getLocal | setLocal =>
      have h' : Instr.first _ < r.locals := h
      show Instr.first _ < (wordCount r.locals).toNat
      rw [toNat_wordCount]
      omega
  | _ => exact h

/-- The code of a function is that of its statements, but for a return at the end. -/
lemma mem_asBody {i : Instr} {is : List Instr} (h : i ∈ asBody is) :
    i ∈ is ∨ i = .plain .returnValue ∨ i = .plain .returnNil := by
  unfold asBody at h
  split_ifs at h
  · rcases List.mem_append.mp h with h | h
    · exact .inl (List.dropLast_subset _ h)
    · exact .inr (.inl (List.mem_singleton.mp h))
  · exact .inl h
  · rcases List.mem_append.mp h with h | h
    · exact .inl h
    · exact .inr (.inr (List.mem_singleton.mp h))

/-- The code of a branch is that of its statements, but for a value at the end. -/
lemma mem_asBranch {i : Instr} {is : List Instr} (h : i ∈ asBranch is) :
    i ∈ is ∨ i = .plain .pushNil := by
  unfold asBranch at h
  split_ifs at h
  · exact .inl (List.dropLast_subset _ h)
  · rcases List.mem_append.mp h with h | h
    · exact .inl h
    · exact .inr (List.mem_singleton.mp h)

namespace Draft.Good

variable {k : Nat} {d : Draft}

/-- Entering a function keeps names and constants in order. -/
lemma entry (h : d.Good k) (name : Option String) (params : List String) :
    Good k ⟨d.symbols.entry name params, d.constants⟩ where
  sound := h.sound.entry name params
  proper := h.proper.entry name params
  pool fn hfn := by
    rw [SymbolTable.outermost_entry]
    exact h.pool fn hfn

/-- Defining a name keeps them in order. -/
lemma define (h : d.Good k) (name : String) :
    Good k { d with symbols := (d.symbols.define name).2 } where
  sound := h.sound.define name
  proper := h.proper.define name
  pool fn hfn := (h.pool fn hfn).mono List.prefix_rfl (Draft.Grows.define d name).globals

/-- So does assigning to one. -/
lemma assignable (h : d.Good k) (name : String) :
    Good k { d with symbols := (d.symbols.assignable name).2 } := by
  rcases d.symbols.assignable_cases name with ⟨x, -, -, heq⟩ | ⟨-, heq⟩ <;> rw [heq]
  · exact h
  · exact h.define name

/-- So does looking one up, with all that is captured on the way. -/
lemma resolve (h : d.Good k) {name : String} {x : Symbol} {t : SymbolTable}
    (hr : d.symbols.resolve name = some (x, t)) : Good k { d with symbols := t } where
  sound := h.sound.resolve hr
  proper := h.proper.resolve hr
  pool fn hfn := (h.pool fn hfn).mono List.prefix_rfl (Draft.Grows.resolve hr).globals

/-- So does leaving a function. -/
lemma leave {summary : ScopeSummary} {t : SymbolTable} (h : d.Good k)
    (hl : d.symbols.leave = some (summary, t)) :
    Good k { d with symbols := t } where
  sound := h.sound.leave hl
  proper := h.proper.leave hl
  pool fn hfn := by
    rw [SymbolTable.outermost_leave hl]
    exact h.pool fn hfn

/-- A constant that is well formed if it is a function. -/
lemma push (h : d.Good k) {c : Constant}
    (hc : ∀ fn, c = .function fn → fn.WellFormed d.constants k d.symbols.outermost.definitions) :
    Good k { d with constants := d.constants.push c } where
  sound := h.sound
  proper := h.proper
  pool fn hfn := by
    have hgrows : d.constants.toList <+: (d.constants.push c).toList := by simp
    rcases Array.mem_push.mp hfn with hfn | hfn
    · exact (h.pool fn hfn).mono hgrows (Nat.le_refl _)
    · exact (hc fn hfn.symm).mono hgrows (Nat.le_refl _)

end Draft.Good

/-! ### The number of slots

Each slot beyond the parameters is stored to, and the instruction that does so has room for 256
slots. -/

/-- A local that can be stored to has one of the first 256 slots, since its operand is one byte. -/
lemma Symbol.index_lt_of_fits {x : Symbol} (hk : x.kind = .local) (h : x.storeInstr.Fits) :
    x.index < 256 := by
  unfold Symbol.storeInstr at h
  rw [hk] at h
  exact (List.forall₂_cons.mp h).1

/-- Taking back a `pop` or putting something in its place leaves the other instructions as they
were. -/
lemma fits_of_endsIn {ss : List Stmt} {is js : List Instr} (hend : Part.EndsIn (.stmts ss) is)
    (hj : lastOp is = some .pop → is.dropLast <+: js) (hj' : lastOp is ≠ some .pop → is <+: js)
    (hf : ∀ i ∈ js, i.Fits) : ∀ i ∈ is, i.Fits := by
  by_cases hp : lastOp is = some .pop
  · obtain ⟨init, rfl, -⟩ := hend hp
    have hinit := hj hp
    rw [List.dropLast_concat] at hinit
    intro i hi
    rcases List.mem_append.mp hi with hi | hi
    · exact hf i (hinit.subset hi)
    · rw [List.mem_singleton.mp hi]
      exact .nil
  · exact fun i hi => hf i ((hj' hp).subset hi)

/-- If the code of a branch fits, so does the code of its statements. -/
lemma Emits.fits_of_asBranch {ss : List Stmt} {d d' : Draft} {pos : Nat} {is : List Instr}
    (h : Emits (.stmts ss) d pos is d') (hf : ∀ i ∈ asBranch is, i.Fits) : ∀ i ∈ is, i.Fits := by
  refine fits_of_endsIn h.endsIn (fun hp => ?_) (fun hp => ?_) hf
  · exact ⟨[], by rw [List.append_nil, asBranch, if_pos hp]⟩
  · rw [asBranch, if_neg hp]
    exact List.prefix_append _ _

/-- If the code of a function fits, so does the code of its statements. -/
lemma Emits.fits_of_asBody {ss : List Stmt} {d d' : Draft} {pos : Nat} {is : List Instr}
    (h : Emits (.stmts ss) d pos is d') (hf : ∀ i ∈ asBody is, i.Fits) : ∀ i ∈ is, i.Fits := by
  refine fits_of_endsIn h.endsIn (fun hp => ?_) (fun hp => ?_) hf
  · rw [asBody, if_pos hp]
    exact List.prefix_append _ _
  · rw [asBody, if_neg hp]
    split_ifs
    · exact List.prefix_rfl
    · exact List.prefix_append _ _

/-- A function whose code fits has no more slots than one byte counts, its parameters apart: each
definition stores to its slot. -/
lemma Emits.slots {part : Part} {d d' : Draft} {pos : Nat} {is : List Instr}
    (h : Emits part d pos is d') (hin : d.symbols.outer ≠ []) (hf : ∀ i ∈ is, i.Fits) :
    d'.symbols.current.definitions ≤ max d.symbols.current.definitions 256 := by
  have step {part : Part} {d d₁ : Draft} {pos : Nat} {is : List Instr} (h : Emits part d pos is d₁)
      (hin : d.symbols.outer ≠ []) : d₁.symbols.outer ≠ [] :=
        fun h' => hin (h.grows.outer_eq_nil.mpr h')
  induction h with
  | ident resolved =>
      exact Nat.le_trans (Nat.le_of_eq (SymbolTable.resolve_captures resolved).1.definitions)
        (Nat.le_max_left _ _)
  | constant _ | immediate _ | noExprs | noPairs | noStmts => exact Nat.le_max_left _ _
  | array _ ih | hash _ ih | unary _ _ ih | ret _ ih | expr _ ih =>
      exact ih hin fun i hi => hf i (by simp [hi])
  | block _ ih => exact ih hin hf
  | branch hbody ih => exact ih hin (hbody.fits_of_asBranch hf)
  | function hbody left _ _ _ _ _ _ =>
      have hcap := (SymbolTable.captures_of_leave hbody.grows.outer left).1
      exact Nat.le_trans (Nat.le_of_eq hcap.definitions) (Nat.le_max_left _ _)
  | binary _ hfirst _ ih ih' | swapped _ hfirst _ ih ih' | index hfirst _ ih ih'
  | call hfirst _ ih ih'
  | exprs hfirst _ ih ih' | stmts hfirst _ ih ih' =>
      have h1 := ih hin fun i hi => hf i (by simp [hi])
      have h2 := ih' (step hfirst hin) fun i hi => hf i (by simp [hi])
      omega
  | cond hfirst hsecond _ ih ih' ih'' | pairs hfirst hsecond _ ih ih' ih''
  | setIndex hfirst hsecond _ ih ih' ih'' =>
      have h1 := ih hin fun i hi => hf i (by simp [hi])
      have h2 := ih' (step hfirst hin) fun i hi => hf i (by simp [hi])
      have h3 := ih'' (step hsecond (step hfirst hin)) fun i hi => hf i (by simp [hi])
      omega
  | @define name _ d _ _ _ _ ih =>
      have hkind : (d.symbols.define name).1.kind = .local :=
        ((SymbolTable.kind_define d.symbols name).resolve_left fun h => hin h.1).2
      have hlt := Symbol.index_lt_of_fits hkind (hf _ (by simp))
      have h1 := ih hin fun i hi => hf i (by simp [hi])
      rw [SymbolTable.index_define] at hlt
      rw [SymbolTable.definitions_define] at h1
      omega
  | @assign name _ d _ _ _ _ ih =>
      rcases d.symbols.assignable_cases name with ⟨x, -, -, heq⟩ | ⟨-, heq⟩ <;> rw [heq] at ih hf
      · exact ih hin fun i hi => hf i (by simp [hi])
      · have hkind : (d.symbols.define name).1.kind = .local :=
          ((SymbolTable.kind_define d.symbols name).resolve_left fun h => hin h.1).2
        have hlt := Symbol.index_lt_of_fits hkind (hf _ (by simp))
        have h1 := ih hin fun i hi => hf i (by simp [hi])
        rw [SymbolTable.index_define] at hlt
        rw [SymbolTable.definitions_define] at h1
        omega

/-! ### Functions -/

/-- A function is well formed if the code of its statements is in range. -/
lemma Emits.wellFormed {k : Nat} {body : List Stmt} {d : Draft} {name : Option String}
    {params : List String} {is : List Instr} {t t' : SymbolTable} {pool : Array Constant}
    {summary : ScopeSummary} {fn : CompiledFunction}
    (hbody : Emits (.stmts body) ⟨d.symbols.entry name params, d.constants⟩ 0 is ⟨t, pool⟩)
    (left : t.leave = some (summary, t')) (reads : fn.code.Reads (asBody is))
    (locals : fn.locals = wordCount summary.definitions)
    (arity : fn.params = wordCount params.length)
    (hrange : AllInRange (Draft.room ⟨t, pool⟩ k) is) :
    fn.WellFormed pool k t.outermost.definitions ∧ fn.FreeBelow summary.free.length := by
  obtain ⟨o, os, ho, -, rfl⟩ := SymbolTable.leave_eq_some left
  have hroom : AllInRange (Draft.room ⟨t, pool⟩ k) (asBody is) := by
    intro i hi
    rcases mem_asBody hi with hi | rfl | rfl
    · exact hrange i hi
    · trivial
    · show (!t.outer.isEmpty) = true
      rw [ho]
      rfl
  obtain ⟨hbal, hret⟩ := hbody.balanced_asBody
  have hdefs := hbody.grows.current.definitions
  have hslots := hbody.slots (by simp) (hbody.fits_of_asBody reads.fits)
  rw [SymbolTable.definitions_entry] at hdefs hslots
  refine ⟨⟨?_, ?_, asBody is, t.current.free.length, reads, hbal, hret, fun i hi => ?_⟩, ?_⟩
  · rw [arity, locals, UInt64.le_iff_toNat_le, toNat_wordCount, toNat_wordCount]
    simp only at hdefs ⊢
    omega
  · rw [arity, locals, toNat_wordCount, toNat_wordCount]
    simp only at hslots ⊢
    omega
  · have h := (hroom i hi).clamp (reads.fits i hi)
    have hlocals : fn.locals = wordCount (Draft.room ⟨t, pool⟩ k).locals := by
      simp only [Draft.room, ho, locals]
      simp
    have hinside : (Draft.room ⟨t, pool⟩ k).inside = true := by
      simp [Draft.room, ho]
    rw [hlocals, ← hinside]
    exact h
  · intro js hjs i hi hop
    rw [← reads.unique hjs] at hi
    have h := hroom i hi
    unfold Instr.InRange at h
    rw [hop] at h
    exact h

/-- Operators have no operands. -/
lemma Opcode.inRange_of_plain {op : Opcode} (r : Room)
    (h : op.isUnary = true ∨ op.isBinary = true ∨ ∃ e : Expr, e.immediate? = some op) :
    (Instr.plain op).InRange r := by
  rcases h with h | h | ⟨e, h⟩
  · cases op <;> trivial
  · cases op <;> trivial
  · unfold Expr.immediate? at h
    split at h <;> first | (cases h; trivial) | cases h

/-- **Operands of compiled code are in range**, and the names and constants stay in order. -/
theorem Emits.good {k : Nat} {part : Part} {d d' : Draft} {pos : Nat} {is : List Instr}
    (h : Emits part d pos is d') (hd : d.Good k) : d'.Good k ∧ AllInRange (d'.room k) is := by
  induction h with
  | ident resolved =>
      exact ⟨hd.resolve resolved,
        .single ((SymbolTable.resolve_loadable hd.sound hd.proper resolved).inRange _)⟩
  | @constant e c d pos literal =>
      have hc : ∀ fn, c ≠ .function fn := by
        rintro fn rfl
        cases e <;> cases literal
      refine ⟨hd.push fun fn hfn => absurd hfn (hc fn), .single ⟨c, ?_, hc⟩⟩
      simp [Draft.room, Instr.first]
  | immediate literal => exact ⟨hd, .single (Opcode.inRange_of_plain _ (.inr (.inr ⟨_, literal⟩)))⟩
  | noExprs | noPairs | noStmts => exact ⟨hd, .nil⟩
  | block _ ih => exact ih hd
  | array _ ih | hash _ ih | ret _ ih | expr _ ih =>
      obtain ⟨hd', hr⟩ := ih hd
      exact ⟨hd', hr.append (.single trivial)⟩
  | unary known _ ih =>
      obtain ⟨hd', hr⟩ := ih hd
      have hop := Operator.isUnary_of_unary? known
      exact ⟨hd', hr.append (.single (Opcode.inRange_of_plain _ (.inl hop)))⟩
  | binary known _ hright ih ih' | swapped known _ hright ih ih' =>
      obtain ⟨hd₁, hr⟩ := ih hd
      obtain ⟨hd', hr'⟩ := ih' hd₁
      have hop := Operator.isBinary_of_binary? known
      exact ⟨hd', ((hr.mono (hright.grows.room k)).append hr').append
        (.single (Opcode.inRange_of_plain _ (.inr (.inl hop))))⟩
  | index _ hsecond ih ih' | call _ hsecond ih ih' =>
      obtain ⟨hd₁, hr⟩ := ih hd
      obtain ⟨hd', hr'⟩ := ih' hd₁
      exact ⟨hd', ((hr.mono (hsecond.grows.room k)).append hr').append (.single trivial)⟩
  | exprs _ htail ih ih' | stmts _ htail ih ih' =>
      obtain ⟨hd₁, hr⟩ := ih hd
      obtain ⟨hd', hr'⟩ := ih' hd₁
      exact ⟨hd', (hr.mono (htail.grows.room k)).append hr'⟩
  | cond _ hyes hno ih ih' ih'' =>
      obtain ⟨hd₁, hr⟩ := ih hd
      obtain ⟨hd₂, hr'⟩ := ih' hd₁
      obtain ⟨hd', hr''⟩ := ih'' hd₂
      have hg := hno.grows.room k
      exact ⟨hd', (((hr.mono (hyes.grows.room k)).mono hg).append
        (.cons trivial ((hr'.mono hg).append (.cons trivial hr''))))⟩
  | pairs _ hvalue htail ih ih' ih'' =>
      obtain ⟨hd₁, hr⟩ := ih hd
      obtain ⟨hd₂, hr'⟩ := ih' hd₁
      obtain ⟨hd', hr''⟩ := ih'' hd₂
      have hg := htail.grows.room k
      exact ⟨hd', (((hr.mono (hvalue.grows.room k)).mono hg).append (hr'.mono hg)).append hr''⟩
  | setIndex _ hindex hvalue ih ih' ih'' =>
      obtain ⟨hd₁, hr⟩ := ih hd
      obtain ⟨hd₂, hr'⟩ := ih' hd₁
      obtain ⟨hd', hr''⟩ := ih'' hd₂
      have hg := hvalue.grows.room k
      exact ⟨hd',
        ((((hr.mono (hindex.grows.room k)).mono hg).append (hr'.mono hg)).append hr'').append
        (.single trivial)⟩
  | @define name _ d _ _ _ hvalue ih =>
      have hd₁ := hd.define name
      obtain ⟨hd', hr⟩ := ih hd₁
      obtain ⟨hx, ho⟩ := d.symbols.find?_of_define name
      have hstore := hd₁.sound.storeInstr_inRange hd₁.proper hx ho d.constants
      exact ⟨hd', hr.append (.single (hstore.mono (hvalue.grows.room k)))⟩
  | @assign name _ d _ _ _ hvalue ih =>
      have hd₁ := hd.assignable name
      obtain ⟨hd', hr⟩ := ih hd₁
      obtain ⟨hx, ho⟩ := d.symbols.find?_of_assignable name
      have hstore := hd₁.sound.storeInstr_inRange hd₁.proper hx ho d.constants
      exact ⟨hd', hr.append (.single (hstore.mono (hvalue.grows.room k)))⟩
  | branch _ ih =>
      obtain ⟨hd', hr⟩ := ih hd
      refine ⟨hd', fun i hi => ?_⟩
      rcases mem_asBranch hi with hi | rfl
      · exact hr i hi
      · trivial
  | @function name params body d pos is t pool _ t' fn hbody left fits code locals arity _ ih =>
      obtain ⟨hd₁, hr⟩ := ih (hd.entry name params)
      obtain ⟨hwf, hfree⟩ := hbody.wellFormed left ⟨code, fits⟩ locals arity hr
      have hleft : Draft.Good k ⟨t', pool⟩ := hd₁.leave left
      have hgood : Draft.Good k ⟨t', pool.push (.function fn)⟩ := by
        refine hleft.push fun fn' hfn => ?_
        cases hfn
        rw [SymbolTable.outermost_leave left]
        exact hwf
      have hgrows : Draft.Grows ⟨t', pool⟩ ⟨t', pool.push (.function fn)⟩ :=
        ⟨.refl _, Scope.forall₂_captures_refl _, by simp⟩
      refine ⟨hgood, AllInRange.append ?_ (.single ⟨fn, ?_, hfree⟩)⟩
      · intro i hi
        obtain ⟨y, hy, rfl⟩ := List.mem_map.mp hi
        have hload := SymbolTable.loadable_of_leave hd₁.sound hd₁.proper left y hy
        exact (hload.inRange pool).mono (hgrows.room k)
      · simp [Draft.room, Instr.first]

/-- Constants are kept also where the compiler stops. -/
lemma Opens.pool {d d' : Draft} (h : Opens d d') : d.constants.toList <+: d'.constants.toList := by
  induction h with
  | here => exact List.prefix_rfl
  | emitted h _ ih => exact h.grows.pool.trans ih
  | defined _ ih => exact ih
  | entered _ ih => exact ih
  | left _ _ ih => exact ih

/-- Names and constants are in order also where the compiler stops. -/
lemma Opens.good {k : Nat} {d d' : Draft} (h : Opens d d') (hd : d.Good k) : d'.Good k := by
  induction h with
  | here => exact hd
  | emitted h _ ih => exact ih (h.good hd).1
  | defined _ ih => exact ih (hd.define _)
  | entered _ ih => exact ih (hd.entry _ _)
  | left h _ ih => exact ih (hd.leave h)

end Marmoset
