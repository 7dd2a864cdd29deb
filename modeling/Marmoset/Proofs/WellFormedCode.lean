import Marmoset.Proofs.Compilation
import Marmoset.Proofs.Operands

/-!
# Compiled code is well formed

What can be said of bytecode without running it (`Bytecode.WellFormed`): each stream is a sequence
of whole instructions, jumps go forward to an instruction of the same stream, and operands refer to
what is there.

The compiler can be used again and again.  `Compiler.Reached` are the compilers that come about when
programs are compiled with whatever outcome, and `Compiler.Clean` those whose code has no remains of
a program that could not be compiled: they started with empty code, with the names and constants of
any compiler that was reached, and everything since then was compiled to its end.

* **`Compiler.Clean.wellFormed_compile`** — what such a compiler makes of a program is well formed.
-/

namespace Marmoset

/-- The stream is made of these instructions, and a reader sees them and nothing else. -/
structure Code.Consists (code : Code) (is : List Instr) : Prop where
  bytes : code.toList = bytesOf is
  lines : Instruction.decode code.toList = linesFrom 0 is

/-- Every jump goes to an instruction of the same stream that stands further back. -/
def JumpsForward (is : List Instr) : Prop :=
  ∀ before i after, is = before ++ i :: after → i.jumps = true →
    ∃ mid j rest, after = mid ++ j :: rest ∧ i.first = extent (before ++ i :: mid)

/-- Bytecode that is in order, for a machine with so many builtins and globals.  The main stream has
no locals and captures nothing, and it neither refers to the function that is running nor returns
nil from it; the stream of a function ends in a return. -/
structure Bytecode.WellFormed (b : Bytecode) (builtins globals : Nat) : Prop where
  main : ∃ is, b.code.Consists is ∧ JumpsForward is ∧
    AllInRange ⟨b.constants, builtins, globals, 0, 0, false⟩ is
  functions : ∀ fn, Constant.function fn ∈ b.constants → fn.params ≤ fn.locals ∧
    ∃ is captured, fn.code.Consists is ∧ JumpsForward is ∧
      (∃ init i, is = init ++ [i] ∧ i.returns = true) ∧
      AllInRange ⟨b.constants, builtins, globals, fn.locals.toNat, captured, true⟩ is

lemma Code.Reads.consists {code : Code} {is : List Instr} (h : code.Reads is) :
    code.Consists is where
  bytes := h.bytes
  lines := by rw [h.bytes, decode_bytesOf h.fits]

lemma Balanced.jumpsForward {h : Nat} {is : List Instr} (hb : Balanced true 0 h is) :
    JumpsForward is := by
  rintro before i after rfl hj
  obtain ⟨-, hjump, -⟩ := hb.right
  obtain ⟨mid, rest, rfl, hne, htarget, -⟩ := hjump hj
  cases rest with
  | nil => exact absurd rfl (hne rfl)
  | cons j rest =>
      refine ⟨mid, j, rest, rfl, ?_⟩
      rw [htarget, extent_append, extent_cons]
      omega

namespace Compiler

/-- A compiler that knows these builtins, as it can come about. -/
inductive Reached (builtins : List Builtin) : Compiler → Prop where
  | withBuiltins : Reached builtins (withBuiltins builtins)
  | ofState {c : Compiler} (h : Reached builtins c) :
      Reached builtins (ofState c.symbols c.constants)
  | compile {c : Compiler} (h : Reached builtins c) (p : Program) : Reached builtins (c.compile p).2

/-- A compiler that has compiled to the end whatever it was given since its code was empty. -/
inductive Clean (builtins : List Builtin) : Compiler → Prop where
  | withBuiltins : Clean builtins (withBuiltins builtins)
  | ofState {c : Compiler} (h : Reached builtins c) : Clean builtins (ofState c.symbols c.constants)
  | compile {c : Compiler} {p : Program} (h : Clean builtins c) (ok : (c.compile p).1 = .ok ()) :
      Clean builtins (c.compile p).2

/-- The names and constants. -/
def draft (c : Compiler) : Draft :=
  ⟨c.symbols, c.constants⟩

/-- A compiler at the top level that is ready for the next program. -/
structure Ready (builtins : Nat) (c : Compiler) : Prop where
  good : c.draft.Good builtins
  outer : c.outer = []
  global : c.symbols.outer = []
  tracks : ∃ is, c.buffer.Tracks is

lemma Ready.at {k : Nat} {c : Compiler} {is : List Instr} (h : c.Ready k)
    (hb : c.buffer.Tracks is) :
    c.At is c.draft [] :=
  ⟨hb, rfl, rfl, h.outer, by simp⟩

lemma Ready.outermost {k : Nat} {c : Compiler} (h : c.Ready k) :
    c.symbols.outermost = c.symbols.current := by
  have hglobal := h.global
  obtain ⟨cs, ⟨s, os⟩, b, o⟩ := c
  cases hglobal
  rfl

/-- At the top level nothing is captured. -/
lemma Ready.free {k : Nat} {c : Compiler} (h : c.Ready k) : c.symbols.current.free = [] := by
  have hglobal := h.global
  have hsound := h.good.sound
  obtain ⟨cs, ⟨s, os⟩, b, o⟩ := c
  cases hglobal
  exact hsound.2

/-- At the top level there are no locals. -/
lemma Ready.room {k : Nat} {c : Compiler} (h : c.Ready k) :
    c.draft.room k = ⟨c.constants, k, c.symbols.outermost.definitions, 0, 0, false⟩ := by
  simp [Draft.room, draft, h.global, h.free]

/-- The two outcomes of a program. -/
lemma Ready.compile_cases {k : Nat} {c : Compiler} {base : List Instr} (h : c.Ready k)
    (hb : c.buffer.Tracks base) (p : Program) :
    (∃ is, (c.compile p).1 = .ok () ∧
      Emits (.stmts p) c.draft (extent base) is (c.compile p).2.draft ∧
      (c.compile p).2.buffer.Tracks (base ++ is) ∧ (c.compile p).2.Ready k) ∨
    (∃ e, (c.compile p).1 = .error e ∧ c.constants.toList <+: (c.compile p).2.constants.toList ∧
      (c.compile p).2.Ready k) := by
  have hlays := Stmt.lays_compileAll p (h.at hb)
  unfold Compile.Ends at hlays
  unfold Compiler.compile
  cases hrun : Stmt.compileAll p c with
  | ok u c' =>
      rw [hrun] at hlays
      obtain ⟨is, d', hem, hc'⟩ := hlays
      have hd' : d' = c'.draft := by
        rw [draft, hc'.symbols, hc'.constants]
      subst hd'
      have hglobal : c'.symbols.outer = [] := hem.grows.outer_eq_nil.mp h.global
      exact .inl ⟨is, rfl, hem, hc'.tracks, (hem.good h.good).1, hc'.outer, hglobal, _, hc'.tracks⟩
  | error e c' =>
      rw [hrun] at hlays
      obtain ⟨hopens, htracked⟩ := hlays
      have hgood := hopens.good h.good
      refine .inr ⟨e, rfl, hopens.pool, ⟨hgood.sound.resetToGlobal, hgood.proper.resetToGlobal, ?_⟩,
        rfl, ?_, ?_⟩
      · intro fn hfn
        show fn.WellFormed c'.constants k c'.symbols.resetToGlobal.outermost.definitions
        rw [SymbolTable.outermost_resetToGlobal]
        exact hgood.pool fn hfn
      · show c'.symbols.resetToGlobal.outer = []
        rw [SymbolTable.resetToGlobal_eq]
      · show ∃ is, (c'.outer.getLastD c'.buffer).Tracks is
        refine htracked _ ?_
        rw [List.getLastD_eq_getLast?]
        cases hlast : c'.outer.getLast? with
        | none => simp
        | some b => exact List.mem_cons_of_mem _ (List.mem_of_getLast? hlast)

/-- The code of a program that is compiled without an error. -/
lemma Ready.emits_of_ok {k : Nat} {c : Compiler} {base : List Instr} (h : c.Ready k)
    (hb : c.buffer.Tracks base) {p : Program} (hok : (c.compile p).1 = .ok ()) :
    ∃ is, Emits (.stmts p) c.draft (extent base) is (c.compile p).2.draft ∧
      (c.compile p).2.buffer.Tracks (base ++ is) ∧ (c.compile p).2.Ready k := by
  rcases h.compile_cases hb p with ⟨is, -, hem, htracks, hready⟩ | ⟨e, he, -⟩
  · exact ⟨is, hem, htracks, hready⟩
  · rw [hok] at he
    cases he

lemma Ready.ofState {k : Nat} {c : Compiler} (h : c.Ready k) :
    (ofState c.symbols c.constants).Ready k :=
  ⟨h.good, rfl, h.global, [], .empty⟩

lemma Reached.ready {builtins : List Builtin} {c : Compiler} (h : Reached builtins c) :
    c.Ready builtins.length := by
  induction h with
  | withBuiltins =>
      obtain ⟨s, hs, hsound, hfree, hproper⟩ := SymbolTable.builtinSymbols_eq builtins
      have hsymbols : (Compiler.withBuiltins builtins).symbols = ⟨s, []⟩ := hs
      refine ⟨⟨?_, ?_, fun fn hfn => absurd hfn (Array.not_mem_empty _)⟩, rfl,
        by rw [hsymbols], [], .empty⟩
      · show (Compiler.withBuiltins builtins).symbols.Sound
        rw [hsymbols]
        exact ⟨hsound, hfree⟩
      · show (Compiler.withBuiltins builtins).symbols.Proper builtins.length
        rw [hsymbols]
        exact hproper
  | ofState _ ih => exact ih.ofState
  | compile _ p ih =>
      obtain ⟨is, hb⟩ := ih.tracks
      rcases ih.compile_cases hb p with ⟨_, -, -, -, h⟩ | ⟨_, -, -, h⟩
      · exact h
      · exact h

/-- The main stream of a clean compiler is the code of statements, one program behind the other. -/
lemma Clean.emitted {builtins : List Builtin} {c : Compiler} (h : Clean builtins c) :
    c.Ready builtins.length ∧ ∃ is, c.buffer.Tracks is ∧ Leaves true 0 is 0 ∧
      AllInRange (c.draft.room builtins.length) is := by
  induction h with
  | withBuiltins => exact ⟨Reached.withBuiltins.ready, [], .empty, .nil _ _, .nil⟩
  | ofState h => exact ⟨h.ready.ofState, [], .empty, .nil _ _, .nil⟩
  | @compile c p _ ok ih =>
      obtain ⟨hready, base, hb, hleaves, hrange⟩ := ih
      obtain ⟨is, hem, htracks, hready'⟩ := hready.emits_of_ok hb ok
      have hrange' := (hem.good hready.good).2
      have hbase := hrange.mono (hem.grows.room builtins.length)
      have hleaves' := hem.balanced
      rw [← Nat.zero_add (extent base)] at hleaves'
      exact ⟨hready', base ++ is, htracks, hleaves.append hleaves' fun h => .inl h,
        hbase.append hrange'⟩

/-- **Compiled code is well formed.** -/
theorem Clean.wellFormed_compile {builtins : List Builtin} {c : Compiler} {p : Program}
    (h : Clean builtins c) (ok : (c.compile p).1 = .ok ()) :
    (c.compile p).2.symbols.outer = [] ∧
      (c.compile p).2.bytecode.WellFormed builtins.length
        (c.compile p).2.symbols.current.definitions := by
  obtain ⟨hready, is, hb, hleaves, hrange⟩ := (h.compile ok).emitted
  rw [hready.room] at hrange
  rw [← hready.outermost]
  refine ⟨hready.global, ⟨is, Code.Reads.consists ⟨hb.code, hb.fits⟩, (hleaves 0).2.jumpsForward,
    hrange⟩, fun fn hfn => ?_⟩
  obtain ⟨harity, -, js, captured, hreads, hbal, hret, hrange'⟩ := hready.good.pool fn hfn
  exact ⟨harity, js, captured, hreads.consists, hbal.jumpsForward, hret, hrange'⟩

/-- A compiler that stopped inside a function, after it had bound a name and added a constant. -/
def interrupted : Compiler :=
  (fresh.compile [.define "a" (.integer 1),
    .expr (.function none ["x"] [.ret (.ident "missing")])]).2

/-- Closures in closures, with a conditional that returns from its middle. -/
def nested : Program :=
  [.define "f" (.function (some "f") ["x"]
    [.expr (.function none ["y"]
      [.block [.expr (.cond (.ident "y") [.expr (.binary "+" (.ident "x") (.ident "y"))]
        (some [.ret (.call (.ident "f") [.ident "a"])]))]])])]

set_option maxRecDepth 100000 in
theorem wellFormed_nested :
    (fresh.compile [.define "a" (.integer 1),
      .expr (.function none ["x"] [.ret (.ident "missing")])]).1 ≠ .ok () ∧
    ((ofState interrupted.symbols interrupted.constants).compile nested).1 = .ok () ∧
    ((ofState interrupted.symbols interrupted.constants).compile nested).2.bytecode.WellFormed
      Builtin.table.length
      ((ofState interrupted.symbols interrupted.constants).compile
        nested).2.symbols.current.definitions := by
  have ok : ((ofState interrupted.symbols interrupted.constants).compile nested).1 = .ok () := by
    decide +kernel
  have h : Clean Builtin.table (ofState interrupted.symbols interrupted.constants) :=
    .ofState (.compile .withBuiltins _)
  exact ⟨by decide +kernel, ok, (h.wellFormed_compile ok).2⟩

end Compiler

end Marmoset
