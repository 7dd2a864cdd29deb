import Marmoset.Proofs.Scopes

/-!
# Every sequence of operations on a symbol table

The compiler works on a symbol table in a certain order: it enters a function, defines its
parameters, resolves the names of its body, and leaves it again.  What a table keeps true does not
depend on that order.

* `SymbolTable.Operation` — all that can be done to a table; `SymbolTable.after` is the table that a
  list of operations leads to from the empty one.
* `Scope.Sound` — what one scope keeps true on its own: the slots of different names are different
  and counted, and each name is captured at most once.
* `Symbol.CapturedFrom` — what a captured symbol is in the scope around.

`SymbolTable.Sound.apply` says that every operation keeps a table in order, and
`SymbolTable.scopes_after_valid` reads off what this means for each scope and its neighbour.
-/

namespace Marmoset

namespace SymbolTable

/-- Something that can be done to a table. -/
inductive Operation where
  | define (name : String)
  | defineBuiltin (name : String) (index : Nat)
  | defineFunctionName (name : String)
  | enter
  | leave
  | resetToGlobal
  | plan (name : String)
  | resolve (name : String)
deriving DecidableEq, Repr, Inhabited

/-- The table after an operation.  Leaving the global scope and resolving an unknown name do
nothing, and making a plan never does. -/
def apply (t : SymbolTable) : Operation → SymbolTable
  | .define name => (t.define name).2
  | .defineBuiltin name index => (t.defineBuiltin name index).2
  | .defineFunctionName name => (t.defineFunctionName name).2
  | .enter => t.enter
  | .leave => (t.leave.map Prod.snd).getD t
  | .resetToGlobal => t.resetToGlobal
  | .plan _ => t
  | .resolve name => ((t.resolve name).map Prod.snd).getD t

/-- The table that the operations lead to, one after the other, from the empty one. -/
def after (ops : List Operation) : SymbolTable :=
  ops.foldl apply .empty

/-- The scopes from the outside in, each at the place of its depth. -/
def scopes (t : SymbolTable) : List Scope :=
  (t.current :: t.outer).reverse

end SymbolTable

/-- A symbol that a function has captured is one that has to be captured, and a slot or a capture
that `outer`, the scope around the function, has. -/
def Symbol.CapturedFrom (y : Symbol) (outer : Scope) : Prop :=
  match y.kind with
  | .local => y.index < outer.definitions
  | .free => y.index < outer.free.length
  | .function => True
  | .global | .builtin => False

lemma Scope.Linked.capturedFrom {inner outer : Scope} (h : inner.Linked outer) (ho : outer.Sound)
    {y : Symbol} (hy : y ∈ inner.free) : y.CapturedFrom outer := by
  obtain ⟨hf, hk⟩ := h y hy
  cases hx : y.kind with
  | global => rw [hx] at hk; cases hk
  | builtin => rw [hx] at hk; cases hk
  | function => simp only [Symbol.CapturedFrom, hx]
  | «local» =>
      simp only [Symbol.CapturedFrom, hx]
      exact ho.below hf (by rw [hx]; rfl)
  | free =>
      simp only [Symbol.CapturedFrom, hx]
      obtain ⟨z, hz, -⟩ := ho.captured hf hx
      exact (List.getElem?_eq_some_iff.mp hz).1

namespace SymbolTable

variable {t : SymbolTable}

/-! ## One operation -/

lemma Sound.bind_builtin (ht : t.Sound) (name : String) (index : Nat) :
    (t.defineBuiltin name index).2.Sound :=
  SoundChain.replace ht (Scope.Sound.bind_other (SoundChain.head ht) rfl (by simp)) rfl

/-- Every operation keeps a table in order. -/
lemma Sound.apply (ht : t.Sound) (op : Operation) : (t.apply op).Sound := by
  cases op with
  | define name => exact ht.define name
  | defineBuiltin name index => exact ht.bind_builtin name index
  | defineFunctionName name => exact ht.bind_function name
  | enter => exact ht.enter
  | leave =>
      show ((t.leave.map Prod.snd).getD t).Sound
      cases hl : t.leave with
      | none => exact ht
      | some r => exact ht.leave hl
  | resetToGlobal => exact ht.resetToGlobal
  | plan name => exact ht
  | resolve name =>
      show (((t.resolve name).map Prod.snd).getD t).Sound
      cases hr : t.resolve name with
      | none => exact ht
      | some r => exact ht.resolve hr

/-! ## All operations -/

lemma Sound.applyAll (ht : t.Sound) (ops : List Operation) :
    (ops.foldl SymbolTable.apply t).Sound := by
  induction ops generalizing t with
  | nil => exact ht
  | cons op ops ih => exact ih (ht.apply op)

lemma after_sound (ops : List Operation) : (after ops).Sound :=
  have h : Sound .empty := ⟨.empty, rfl⟩
  h.applyAll ops

/-! ## What a table in order looks like from outside -/

lemma SoundChain.sound_of_mem {s o : Scope} {os : List Scope} (h : SoundChain s os)
    (ho : o ∈ s :: os) :
    o.Sound := by
  induction os generalizing s with
  | nil =>
      rw [List.mem_singleton.mp ho]
      exact h.1
  | cons p os ih =>
      rcases List.mem_cons.mp ho with rfl | ho
      · exact h.1
      · exact ih h.2.2 ho

/-- Neighbours of a chain are linked, wherever they stand. -/
lemma SoundChain.linked {s inner outer : Scope} {os : List Scope} {k : Nat} (h : SoundChain s os)
    (hi : (s :: os)[k]? = some inner) (ho : (s :: os)[k + 1]? = some outer) :
    inner.Linked outer := by
  induction os generalizing s k with
  | nil => simp at ho
  | cons p os ih =>
      cases k with
      | zero =>
          simp only [List.getElem?_cons_zero, List.getElem?_cons_succ, Option.some.injEq] at hi ho
          rw [← hi, ← ho]
          exact h.2.1
      | succ k => exact ih h.2.2 hi ho

lemma mem_scopes {s : Scope} : s ∈ t.scopes ↔ s ∈ t.current :: t.outer :=
  List.mem_reverse

/-- The scope at a depth, counted from the inside. -/
lemma getElem?_scopes {d : Nat} (hd : d ≤ t.depth) :
    t.scopes[d]? = (t.current :: t.outer)[t.depth - d]? := by
  have hlen : (t.current :: t.outer).length = t.depth + 1 := rfl
  rw [scopes, List.getElem?_reverse (by omega), hlen]
  congr 1

/-- The scope one further in is linked to the scope at a depth. -/
lemma Sound.linked_scopes (ht : t.Sound) {d : Nat} {inner outer : Scope}
    (hi : t.scopes[d + 1]? = some inner) (ho : t.scopes[d]? = some outer) : inner.Linked outer := by
  have hd : d + 1 ≤ t.depth := by
    have hlt := (List.getElem?_eq_some_iff.mp hi).1
    simp only [scopes, List.length_reverse, List.length_cons] at hlt
    exact Nat.le_of_lt_succ hlt
  rw [getElem?_scopes hd] at hi
  rw [getElem?_scopes (by omega), show t.depth - d = t.depth - (d + 1) + 1 by omega] at ho
  exact SoundChain.linked ht hi ho

/-- **What every table keeps true.**  After any operations, in each scope the slots of names are
below the number of definitions, no two names share a slot, every free symbol counts the place where
its own name was captured, and no name is captured twice; what a scope captures is a local, a
capture or the function itself of the scope around it; and the global scope captures nothing. -/
theorem scopes_after_valid (ops : List Operation) :
    (∀ s ∈ (after ops).scopes, s.Sound) ∧
      (∀ d inner outer, (after ops).scopes[d + 1]? = some inner →
        (after ops).scopes[d]? = some outer → ∀ y ∈ inner.free, y.CapturedFrom outer) ∧
      ∃ s, (after ops).scopes[0]? = some s ∧ s.free = [] := by
  have ht := after_sound ops
  refine ⟨fun s hs => SoundChain.sound_of_mem ht (mem_scopes.mp hs), ?_, ?_⟩
  · intro d inner outer hi ho y hy
    have hs : outer.Sound := SoundChain.sound_of_mem ht (mem_scopes.mp (List.mem_of_getElem? ho))
    exact (ht.linked_scopes hi ho).capturedFrom hs hy
  · refine ⟨(after ops).outermost, ?_, (SoundChain.outermost ht).2⟩
    rw [← List.head?_eq_getElem?, scopes, List.head?_reverse, List.getLast?_cons, outermost,
      List.getLastD_eq_getLast?]

/-- A name that two functions capture from a third, asked for again after the inner one has bound it
anew: each has captured it once. -/
example :
    (after [.enter, .define "x", .enter, .enter, .resolve "x", .define "x",
      .resolve "x"]).scopes.map
        (fun s => (s.free, s.definitions)) =
      [([], 0), ([], 1), ([⟨"x", .local, 0⟩], 0), ([⟨"x", .free, 0⟩], 1)] := by
  decide

end SymbolTable

end Marmoset
