import Marmoset.Compiler
import Mathlib.Data.List.Forall2
import Mathlib.Tactic.Common

/-!
# What a symbol table keeps true

A symbol table is a chain of scopes.  Two things happen to it while a program is compiled: names are
bound in the innermost scope, and a name that is found further out is captured by the scopes on the
way.

* `Scope.Captures` — what capturing can do to a scope.  It only adds free symbols for names that the
  scope did not have; this is also all that can happen to the scopes around the one that is
  compiled.
* `Scope.Sound`, `SymbolTable.Sound` — slots are below the number of definitions and no two names
  share one, and every captured symbol is what its name stands for in the scope around.
* `SymbolTable.Proper` — the kinds of symbols that stand at each depth.

Every operation of the table keeps the last two, and `SymbolTable.resolve` moreover gives a symbol
that can be loaded where it was asked for (`SymbolTable.resolve_loadable`).
-/

namespace Marmoset

namespace Scope

/-- A symbol is found under its own name. -/
lemma name_of_find? {s : Scope} {n : String} {x : Symbol} (h : s.find? n = some x) :
    x.name = n := by
  simpa using List.find?_some h

@[simp] lemma definitions_bind (s : Scope) (x : Symbol) :
    (s.bind x).definitions = s.definitions := rfl

@[simp] lemma free_bind (s : Scope) (x : Symbol) : (s.bind x).free = s.free := rfl

@[simp] lemma find?_empty (n : String) : Scope.empty.find? n = none := rfl

/-! ## Captures -/

/-- `s'` is `s` after captures: names that had no symbol may have a free one now. -/
structure Captures (s s' : Scope) : Prop where
  definitions : s'.definitions = s.definitions
  free : s.free <+: s'.free
  keeps : ∀ {n x}, s.find? n = some x → s'.find? n = some x
  adds : ∀ {n x}, s'.find? n = some x → s.find? n = some x ∨ (s.find? n = none ∧ x.kind = .free)

namespace Captures

variable {s s' s'' : Scope}

lemma refl (s : Scope) : Captures s s := ⟨rfl, List.prefix_rfl, id, .inl⟩

/-- Captures one after the other are captures. -/
lemma trans (h : Captures s s') (h' : Captures s' s'') : Captures s s'' where
  definitions := h'.definitions.trans h.definitions
  free := h.free.trans h'.free
  keeps hx := h'.keeps (h.keeps hx)
  adds {n x} hx := by
    rcases h'.adds hx with hx | ⟨hn, hk⟩
    · exact h.adds hx
    · cases hs : s.find? n with
      | none => exact .inr ⟨rfl, hk⟩
      | some y => rw [h.keeps hs] at hn; cases hn

/-- A single capture, of a name that the scope does not have. -/
lemma capture {y : Symbol} (h : s.find? y.name = none) : Captures s (s.capture y).2 where
  definitions := rfl
  free := List.prefix_append _ _
  keeps {n x} hx := by
    have hne : y.name ≠ n := by rintro rfl; rw [h] at hx; cases hx
    show (s.bind _).find? n = some x
    rw [find?_bind, if_neg hne, hx]
  adds {n x} hx := by
    change (s.bind _).find? n = some x at hx
    rw [find?_bind] at hx
    split_ifs at hx with hn
    · cases hx
      exact .inr ⟨hn ▸ h, rfl⟩
    · exact .inl hx

end Captures

/-- Scopes that stay as they are capture nothing. -/
lemma forall₂_captures_refl (ss : List Scope) : List.Forall₂ Captures ss ss := by
  induction ss with
  | nil => exact .nil
  | cons s ss ih => exact .cons (.refl s) ih

/-- Captures along a chain of scopes add up, scope by scope. -/
lemma forall₂_captures_trans {xs ys zs : List Scope} (h : List.Forall₂ Captures xs ys)
    (h' : List.Forall₂ Captures ys zs) : List.Forall₂ Captures xs zs := by
  induction h generalizing zs with
  | nil => exact h'
  | cons hxy _ ih =>
      obtain ⟨z, zs, hz, hzs, rfl⟩ := List.forall₂_cons_left_iff.mp h'
      exact .cons (hxy.trans hz) (ih hzs)

end Scope

namespace SymbolTable

open Scope

/-! ## How a name is resolved -/

/-- The three ways to resolve a name: it stands in the scope itself, it can be reached from
everywhere, or it is captured. -/
lemma resolveIn_cases {n : String} {s s' : Scope} {os os' : List Scope} {x : Symbol}
    (h : resolveIn n s os = some (x, s', os')) :
    (s.find? n = some x ∧ s' = s ∧ os' = os) ∨
    (∃ o ol o' ol' y, os = o :: ol ∧ os' = o' :: ol' ∧ s.find? n = none ∧
      resolveIn n o ol = some (y, o', ol') ∧
      ((y.kind.reachable = true ∧ x = y ∧ s' = s) ∨
        (y.kind.reachable = false ∧ x = (s.capture y).1 ∧ s' = (s.capture y).2))) := by
  cases os with
  | nil =>
      simp only [resolveIn, Option.map_eq_some_iff, Prod.mk.injEq] at h
      obtain ⟨y, hy, rfl, rfl, rfl⟩ := h
      exact .inl ⟨hy, rfl, rfl⟩
  | cons o ol =>
      rw [resolveIn] at h
      cases hs : s.find? n with
      | some y =>
          simp only [hs, Option.some.injEq, Prod.mk.injEq] at h
          obtain ⟨rfl, rfl, rfl⟩ := h
          exact .inl ⟨rfl, rfl, rfl⟩
      | none =>
          refine .inr ?_
          simp only [hs] at h
          cases ho : resolveIn n o ol with
          | none => rw [ho] at h; cases h
          | some r =>
              obtain ⟨y, o', ol'⟩ := r
              rw [ho] at h
              simp only at h
              cases hk : y.kind.reachable with
              | true =>
                  simp only [hk, if_true, Option.some.injEq, Prod.mk.injEq] at h
                  obtain ⟨rfl, rfl, rfl⟩ := h
                  exact ⟨o, ol, o', ol', y, rfl, rfl, rfl, ho, .inl ⟨hk, rfl, rfl⟩⟩
              | false =>
                  simp only [hk, Bool.false_eq_true, if_false, Option.some.injEq,
                    Prod.mk.injEq] at h
                  obtain ⟨rfl, rfl, rfl⟩ := h
                  exact ⟨o, ol, o', ol', y, rfl, rfl, rfl, ho, .inr ⟨hk, rfl, rfl⟩⟩

/-- Whatever a name is resolved to bears the name. -/
lemma name_of_resolveIn {n : String} {s s' : Scope} {os os' : List Scope} {x : Symbol}
    (h : resolveIn n s os = some (x, s', os')) : x.name = n := by
  induction os generalizing s s' os' x with
  | nil =>
      rcases resolveIn_cases h with ⟨hx, -, -⟩ | ⟨o, ol, o', ol', y, he, -⟩
      · exact name_of_find? hx
      · cases he
  | cons o ol ih =>
      rcases resolveIn_cases h with ⟨hx, -, -⟩ | ⟨o, ol, o', ol', y, he, -, -, ho, hy⟩
      · exact name_of_find? hx
      · cases he
        have hyn : y.name = n := ih ho
        rcases hy with ⟨-, rfl, -⟩ | ⟨-, rfl, -⟩
        · exact hyn
        · exact hyn

/-- Resolving a name only captures. -/
lemma resolveIn_captures {n : String} {s s' : Scope} {os os' : List Scope} {x : Symbol}
    (h : resolveIn n s os = some (x, s', os')) : Captures s s' ∧ List.Forall₂ Captures os os' := by
  induction os generalizing s s' os' x with
  | nil =>
      rcases resolveIn_cases h with ⟨-, rfl, rfl⟩ | ⟨o, ol, o', ol', y, he, -⟩
      · exact ⟨.refl _, .nil⟩
      · cases he
  | cons o ol ih =>
      rcases resolveIn_cases h with ⟨-, rfl, rfl⟩ | ⟨o, ol, o', ol', y, he, rfl, hn, ho, hy⟩
      · exact ⟨.refl _, forall₂_captures_refl _⟩
      · cases he
        obtain ⟨h1, h2⟩ := ih ho
        refine ⟨?_, .cons h1 h2⟩
        rcases hy with ⟨-, -, rfl⟩ | ⟨-, -, rfl⟩
        · exact .refl _
        · exact .capture (by rw [name_of_resolveIn ho]; exact hn)

/-- What is not reachable from everywhere stands in the scope itself after it was resolved. -/
lemma find?_of_resolveIn {n : String} {s s' : Scope} {os os' : List Scope} {x : Symbol}
    (h : resolveIn n s os = some (x, s', os')) :
    s'.find? n = some x ∨
      (x.kind.reachable = true ∧ s'.find? n = none ∧ ∃ o ∈ os, o.find? n = some x) := by
  induction os generalizing s s' os' x with
  | nil =>
      rcases resolveIn_cases h with ⟨hx, rfl, -⟩ | ⟨o, ol, o', ol', y, he, -⟩
      · exact .inl hx
      · cases he
  | cons o ol ih =>
      rcases resolveIn_cases h with ⟨hx, rfl, -⟩ | ⟨o, ol, o', ol', y, he, rfl, hn, ho, hy⟩
      · exact .inl hx
      · cases he
        rcases hy with ⟨hk, rfl, rfl⟩ | ⟨hk, rfl, rfl⟩
        · refine .inr ⟨hk, hn, ?_⟩
          rcases ih ho with hx | ⟨-, -, q, hq, hx⟩
          · rcases (resolveIn_captures ho).1.adds hx with hx | ⟨-, hf⟩
            · exact ⟨o, by simp, hx⟩
            · rw [hf] at hk; cases hk
          · exact ⟨q, List.mem_cons_of_mem _ hq, hx⟩
        · refine .inl ?_
          show (s.bind _).find? n = _
          rw [find?_bind, if_pos (name_of_resolveIn ho)]
          rfl

/-! ## Sound tables -/

end SymbolTable

/-- A scope whose slots are in order: they are below the number of definitions, no two names share
one, and every free symbol counts the place where its name was captured. -/
structure Scope.Sound (s : Scope) : Prop where
  below : ∀ {n x}, s.find? n = some x → x.kind.owned = true → x.index < s.definitions
  apart : ∀ {n m x y}, s.find? n = some x → s.find? m = some y → x.kind.owned = true →
    y.kind.owned = true → x.index = y.index → n = m
  captured : ∀ {n x}, s.find? n = some x → x.kind = .free →
    ∃ y, s.free[x.index]? = some y ∧ y.name = n
  known : ∀ {y}, y ∈ s.free → ∃ x, s.find? y.name = some x
  once : (s.free.map Symbol.name).Nodup

/-- Everything that `inner` captures is what its name stands for in `outer`, and has to be
captured. -/
def Scope.Linked (inner outer : Scope) : Prop :=
  ∀ y ∈ inner.free, outer.find? y.name = some y ∧ y.kind.reachable = false

namespace Scope.Sound

variable {s : Scope}

protected lemma empty : Scope.empty.Sound where
  below h := by simp at h
  apart h := by simp at h
  captured h := by simp at h
  known h := by simp [Scope.empty] at h
  once := by simp [Scope.empty]

/-- A symbol that is no slot and no capture changes nothing that soundness is about. -/
lemma bind_other (h : s.Sound) {x : Symbol} (ho : x.kind.owned = false) (hf : x.kind ≠ .free) :
    (s.bind x).Sound where
  below {n y} hy hk := by
    rw [find?_bind] at hy
    split_ifs at hy with hn
    · cases hy; rw [ho] at hk; cases hk
    · exact h.below hy hk
  apart {n m y z} hy hz hky hkz he := by
    rw [find?_bind] at hy hz
    split_ifs at hy with hn
    · cases hy; rw [ho] at hky; cases hky
    · split_ifs at hz with hm
      · cases hz; rw [ho] at hkz; cases hkz
      · exact h.apart hy hz hky hkz he
  captured {n y} hy hk := by
    rw [find?_bind] at hy
    split_ifs at hy with hn
    · cases hy; exact absurd hk hf
    · exact h.captured hy hk
  known {y} hy := by
    rw [find?_bind]
    split_ifs
    · exact ⟨x, rfl⟩
    · exact h.known hy
  once := h.once

/-- The next slot is shared with no other name. -/
lemma define (h : s.Sound) {x : Symbol} (hx : x.index = s.definitions) (hf : x.kind ≠ .free) :
    ({ s.bind x with definitions := s.definitions + 1 } : Scope).Sound where
  below {n y} hy hk := by
    change (s.bind x).find? n = some y at hy
    rw [find?_bind] at hy
    show y.index < s.definitions + 1
    split_ifs at hy with hn
    · cases hy; omega
    · have := h.below hy hk; omega
  apart {n m y z} hy hz hky hkz he := by
    change (s.bind x).find? n = some y at hy
    change (s.bind x).find? m = some z at hz
    rw [find?_bind] at hy hz
    split_ifs at hy with hn <;> split_ifs at hz with hm
    · rw [← hn, ← hm]
    · cases hy; have := h.below hz hkz; omega
    · cases hz; have := h.below hy hky; omega
    · exact h.apart hy hz hky hkz he
  captured {n y} hy hk := by
    change (s.bind x).find? n = some y at hy
    rw [find?_bind] at hy
    split_ifs at hy with hn
    · cases hy; exact absurd hk hf
    · exact h.captured hy hk
  known {y} hy := by
    show ∃ z, (s.bind x).find? y.name = some z
    rw [find?_bind]
    split_ifs
    · exact ⟨x, rfl⟩
    · exact h.known hy
  once := h.once

/-- A captured name is new in the scope, so it counts the next place among the captured ones. -/
lemma capture (h : s.Sound) {y : Symbol} (hy : s.find? y.name = none) : (s.capture y).2.Sound where
  below {n x} hx hk := by
    change (s.bind _).find? n = some x at hx
    rw [find?_bind] at hx
    split_ifs at hx with hn
    · cases hx; simp [SymbolKind.owned] at hk
    · exact h.below hx hk
  apart {n m x z} hx hz hkx hkz he := by
    change (s.bind _).find? n = some x at hx
    change (s.bind _).find? m = some z at hz
    rw [find?_bind] at hx hz
    split_ifs at hx with hn
    · cases hx; simp [SymbolKind.owned] at hkx
    · split_ifs at hz with hm
      · cases hz; simp [SymbolKind.owned] at hkz
      · exact h.apart hx hz hkx hkz he
  captured {n x} hx hk := by
    change (s.bind _).find? n = some x at hx
    rw [find?_bind] at hx
    show ∃ z, (s.free ++ [y])[x.index]? = some z ∧ z.name = n
    split_ifs at hx with hn
    · cases hx
      exact ⟨y, by simp, hn⟩
    · obtain ⟨z, hz, hzn⟩ := h.captured hx hk
      exact ⟨z, by rw [List.getElem?_append_left (List.getElem?_eq_some_iff.mp hz).1, hz], hzn⟩
  known {z} hz := by
    change z ∈ s.free ++ [y] at hz
    show ∃ x, (s.bind _).find? z.name = some x
    rw [find?_bind]
    split_ifs with hn
    · exact ⟨_, rfl⟩
    · rcases List.mem_append.mp hz with hz | hz
      · exact h.known hz
      · rw [List.mem_singleton.mp hz] at hn
        exact absurd rfl hn
  once := by
    show ((s.free ++ [y]).map Symbol.name).Nodup
    rw [List.map_append, List.nodup_append]
    refine ⟨h.once, by simp, ?_⟩
    intro a ha b hb
    simp only [List.map_cons, List.map_nil, List.mem_singleton] at hb
    subst hb
    obtain ⟨z, hz, rfl⟩ := List.mem_map.mp ha
    intro he
    obtain ⟨x, hx⟩ := h.known hz
    rw [he, hy] at hx
    cases hx

end Scope.Sound

/-- Captures around leave what an inner scope is linked to. -/
lemma Scope.Linked.captures {inner outer outer' : Scope} (h : inner.Linked outer)
    (hc : outer.Captures outer') : inner.Linked outer' :=
  fun y hy => ⟨hc.keeps (h y hy).1, (h y hy).2⟩

namespace SymbolTable

open Scope

/-- Each scope of a chain is sound and linked to the one around it; the outermost captures
nothing. -/
def SoundChain : Scope → List Scope → Prop
  | s, [] => s.Sound ∧ s.free = []
  | s, o :: os => s.Sound ∧ s.Linked o ∧ SoundChain o os

/-- A table all of whose scopes are in order. -/
def Sound (t : SymbolTable) : Prop :=
  SoundChain t.current t.outer

/-- The innermost scope of a sound chain is sound. -/
lemma SoundChain.head {s : Scope} {os : List Scope} (h : SoundChain s os) : s.Sound := by
  cases os with
  | nil => exact h.1
  | cons o os => exact h.1

/-- The innermost scope may be replaced by a sound one that captures the same. -/
lemma SoundChain.replace {s s' : Scope} {os : List Scope} (h : SoundChain s os) (hs : s'.Sound)
    (hf : s'.free = s.free) : SoundChain s' os := by
  cases os with
  | nil => exact ⟨hs, hf.trans h.2⟩
  | cons o os => exact ⟨hs, by rw [Linked, hf]; exact h.2.1, h.2.2⟩

/-- Resolving a name keeps every scope of the chain sound and linked. -/
lemma SoundChain.resolveIn {n : String} {s s' : Scope} {os os' : List Scope} {x : Symbol}
    (h : SoundChain s os) (hr : SymbolTable.resolveIn n s os = some (x, s', os')) :
    SoundChain s' os' := by
  induction os generalizing s s' os' x with
  | nil =>
      rcases resolveIn_cases hr with ⟨-, rfl, rfl⟩ | ⟨o, ol, o', ol', y, he, -⟩
      · exact h
      · cases he
  | cons o ol ih =>
      rcases resolveIn_cases hr with ⟨-, rfl, rfl⟩ | ⟨o, ol, o', ol', y, he, rfl, hn, ho, hy⟩
      · exact h
      · cases he
        obtain ⟨hs, hl, hc⟩ := h
        have hc' := ih hc ho
        obtain ⟨hcap, -⟩ := resolveIn_captures ho
        rcases hy with ⟨-, -, rfl⟩ | ⟨hk, -, rfl⟩
        · exact ⟨hs, hl.captures hcap, hc'⟩
        · refine ⟨hs.capture (by rw [name_of_resolveIn ho]; exact hn), ?_, hc'⟩
          intro z hz
          rcases List.mem_append.mp (show z ∈ s.free ++ [y] from hz) with hz | hz
          · exact hl.captures hcap z hz
          · rw [List.mem_singleton.mp hz, name_of_resolveIn ho]
            rcases find?_of_resolveIn ho with hf | ⟨hr, -⟩
            · exact ⟨hf, hk⟩
            · rw [hk] at hr; cases hr

/-- The kinds that stand at each depth: globals and builtins outside, the rest inside functions. -/
def ProperChain (builtins : Nat) : Scope → List Scope → Prop
  | s, [] => ∀ n x, s.find? n = some x → x.kind = .global ∨ (x.kind = .builtin ∧ x.index < builtins)
  | s, o :: os => (∀ n x, s.find? n = some x → x.kind.reachable = false) ∧ ProperChain builtins o os

/-- A table that knows so many builtins, with the right kinds at each depth. -/
def Proper (builtins : Nat) (t : SymbolTable) : Prop :=
  ProperChain builtins t.current t.outer

/-- Resolving a name adds no symbol that is out of place at its depth. -/
lemma ProperChain.resolveIn {k : Nat} {n : String} {s s' : Scope} {os os' : List Scope} {x : Symbol}
    (h : ProperChain k s os) (hr : SymbolTable.resolveIn n s os = some (x, s', os')) :
    ProperChain k s' os' := by
  induction os generalizing s s' os' x with
  | nil =>
      rcases resolveIn_cases hr with ⟨-, rfl, rfl⟩ | ⟨o, ol, o', ol', y, he, -⟩
      · exact h
      · cases he
  | cons o ol ih =>
      rcases resolveIn_cases hr with ⟨-, rfl, rfl⟩ | ⟨o, ol, o', ol', y, he, rfl, hn, ho, hy⟩
      · exact h
      · cases he
        refine ⟨fun m z hz => ?_, ih h.2 ho⟩
        have hcap : Captures s s' := (resolveIn_captures hr).1
        rcases hcap.adds hz with hz | ⟨-, hz⟩
        · exact h.1 m z hz
        · rw [hz]; rfl

/-- The scope of the top level. -/
def outermost (t : SymbolTable) : Scope :=
  t.outer.getLastD t.current

@[simp] lemma outermost_nil (s : Scope) : outermost ⟨s, []⟩ = s := rfl

/-- The outermost scope is the same seen from any scope of the chain. -/
@[simp] lemma outermost_cons (s o : Scope) (os : List Scope) :
    outermost ⟨s, o :: os⟩ = outermost ⟨o, os⟩ := by
  cases os with
  | nil => rfl
  | cons p os => simp [outermost, List.getLast?_eq_some_getLast]

/-- In a proper chain, what can be reached from everywhere stands in the outermost scope. -/
lemma ProperChain.find?_outermost {k : Nat} {n : String} {x : Symbol} {s o : Scope}
    {os : List Scope} (h : ProperChain k s os) (ho : o ∈ s :: os) (hx : o.find? n = some x)
    (hk : x.kind.reachable = true) :
    (outermost ⟨s, os⟩).find? n = some x := by
  induction os generalizing s with
  | nil =>
      simp only [List.mem_singleton] at ho
      rw [outermost_nil, ← ho, hx]
  | cons p os ih =>
      rw [outermost_cons]
      rcases List.mem_cons.mp ho with rfl | ho
      · rw [h.1 n x hx] at hk; cases hk
      · exact ih h.2 ho

/-- The kinds of the outermost scope. -/
lemma ProperChain.outermost {k : Nat} {n : String} {x : Symbol} {s : Scope} {os : List Scope}
    (h : ProperChain k s os) (hx : (outermost ⟨s, os⟩).find? n = some x) :
    x.kind = .global ∨ (x.kind = .builtin ∧ x.index < k) := by
  induction os generalizing s with
  | nil => exact h n x hx
  | cons o os ih => rw [outermost_cons] at hx; exact ih h.2 hx

/-- The outermost scope of a sound chain is sound and captures nothing. -/
lemma SoundChain.outermost {s : Scope} {os : List Scope} (h : SoundChain s os) :
    (outermost ⟨s, os⟩).Sound ∧ (outermost ⟨s, os⟩).free = [] := by
  induction os generalizing s with
  | nil => exact h
  | cons o os ih => rw [outermost_cons]; exact ih h.2.2

/-- Captures give out no slots of the top level. -/
lemma definitions_outermost {s s' : Scope} {os os' : List Scope} (hs : s.Captures s')
    (h : List.Forall₂ Captures os os') :
    (outermost ⟨s', os'⟩).definitions = (outermost ⟨s, os⟩).definitions := by
  induction h generalizing s s' with
  | nil => exact hs.definitions
  | cons ho _ ih => rw [outermost_cons, outermost_cons]; exact ih ho

/-! ## Operations on tables -/

section

variable {t t' : SymbolTable} {n : String} {x : Symbol}

/-- Resolving works on the chain of scopes that the table holds. -/
lemma resolve_eq_some (h : t.resolve n = some (x, t')) :
    resolveIn n t.current t.outer = some (x, t'.current, t'.outer) := by
  simp only [resolve] at h
  split at h
  · cases h
  · next hr => cases h; exact hr

/-- Resolving a name keeps a table sound. -/
lemma Sound.resolve (ht : t.Sound) (h : t.resolve n = some (x, t')) : t'.Sound :=
  SoundChain.resolveIn ht (resolve_eq_some h)

/-- Resolving a name keeps a table proper. -/
lemma Proper.resolve {k : Nat} (ht : t.Proper k) (h : t.resolve n = some (x, t')) : t'.Proper k :=
  ProperChain.resolveIn ht (resolve_eq_some h)

/-- Resolving a name only captures, in the current scope and in those around. -/
lemma resolve_captures (h : t.resolve n = some (x, t')) :
    t.current.Captures t'.current ∧ List.Forall₂ Captures t.outer t'.outer :=
  resolveIn_captures (resolve_eq_some h)

/-- Resolving a name does not leave the function. -/
lemma depth_resolve (h : t.resolve n = some (x, t')) : t'.depth = t.depth :=
  (resolve_captures h).2.length_eq.symm

/-- A symbol can be loaded in a scope: it is a slot or a capture of this scope, the function itself,
or something that can be reached from everywhere. -/
inductive Loadable (builtins : Nat) (t : SymbolTable) (x : Symbol) : Prop
  | global : x.kind = .global → x.index < t.outermost.definitions → Loadable builtins t x
  | builtin : x.kind = .builtin → x.index < builtins → Loadable builtins t x
  | slot : t.outer ≠ [] → x.kind = .local → x.index < t.current.definitions → Loadable builtins t x
  | free : t.outer ≠ [] → x.kind = .free → x.index < t.current.free.length → Loadable builtins t x
  | self : t.outer ≠ [] → x.kind = .function → Loadable builtins t x

/-- What a name stands for in a scope can be loaded there. -/
lemma loadable_of_find? {k : Nat} (ht : t.Sound) (hp : t.Proper k)
    (h : t.current.find? n = some x) :
    Loadable k t x := by
  obtain ⟨s, os⟩ := t
  cases os with
  | nil =>
      rcases hp n x h with hk | ⟨hk, hi⟩
      · exact .global hk (ht.1.below h (by rw [hk]; rfl))
      · exact .builtin hk hi
  | cons o os =>
      have hs : s.Sound := ht.1
      have hk : x.kind.reachable = false := hp.1 n x h
      cases hx : x.kind with
      | global => rw [hx] at hk; cases hk
      | builtin => rw [hx] at hk; cases hk
      | «local» => exact .slot (by simp) hx (hs.below h (by rw [hx]; rfl))
      | free =>
          obtain ⟨y, hy, -⟩ := hs.captured h hx
          exact .free (by simp) hx (List.getElem?_eq_some_iff.mp hy).1
      | function => exact .self (by simp) hx

/-- **A name that was resolved can be loaded.** -/
theorem resolve_loadable {k : Nat} (ht : t.Sound) (hp : t.Proper k)
    (h : t.resolve n = some (x, t')) :
    Loadable k t' x := by
  have hr := resolve_eq_some h
  rcases find?_of_resolveIn hr with hx | ⟨hk, -, o, ho, hx⟩
  · exact loadable_of_find? (ht.resolve h) (hp.resolve h) hx
  · obtain ⟨hc, hcs⟩ := resolve_captures h
    have hout := ProperChain.find?_outermost hp (List.mem_cons_of_mem _ ho) hx hk
    have hdef := definitions_outermost hc hcs
    rcases ProperChain.outermost hp hout with hg | ⟨hb, hi⟩
    · refine .global hg ?_
      show _ < (outermost ⟨t'.current, t'.outer⟩).definitions
      rw [hdef]
      exact (SoundChain.outermost ht).1.below hout (by rw [hg]; rfl)
    · exact .builtin hb hi

@[simp] lemma outer_define (t : SymbolTable) (n : String) : (t.define n).2.outer = t.outer := rfl

@[simp] lemma index_define (t : SymbolTable) (n : String) :
    (t.define n).1.index = t.current.definitions := rfl

@[simp] lemma definitions_define (t : SymbolTable) (n : String) :
    (t.define n).2.current.definitions = t.current.definitions + 1 := rfl

@[simp] lemma free_define (t : SymbolTable) (n : String) :
    (t.define n).2.current.free = t.current.free := rfl

/-- A definition is what its name stands for from now on, and other names stand for what they did.
-/
lemma find?_define (t : SymbolTable) (n m : String) :
    (t.define n).2.current.find? m = if n = m then some (t.define n).1 else t.current.find? m :=
  find?_bind t.current (t.define n).1 m

/-- A new name is a global at the top level and a local inside functions. -/
lemma kind_define (t : SymbolTable) (n : String) :
    (t.outer = [] ∧ (t.define n).1.kind = .global) ∨
      (t.outer ≠ [] ∧ (t.define n).1.kind = .local) := by
  cases h : t.outer with
  | nil => exact .inl ⟨rfl, by simp [define, h]⟩
  | cons o os => exact .inr ⟨by simp, by simp [define, h]⟩

/-- A definition takes a slot that no other name has. -/
lemma Sound.define (ht : t.Sound) (n : String) : (t.define n).2.Sound := by
  have hk : (t.define n).1.kind ≠ .free := by
    rcases kind_define t n with ⟨-, h⟩ | ⟨-, h⟩ <;> rw [h] <;> simp
  exact SoundChain.replace ht (Scope.Sound.define (SoundChain.head ht) rfl hk) rfl

/-- A definition has the kind that belongs to its depth. -/
lemma Proper.define {k : Nat} (ht : t.Proper k) (n : String) : (t.define n).2.Proper k := by
  obtain ⟨s, os⟩ := t
  cases os with
  | nil =>
      intro m x hx
      rw [find?_define] at hx
      split_ifs at hx
      · cases hx; exact .inl rfl
      · exact ht m x hx
  | cons o os =>
      refine ⟨fun m x hx => ?_, ht.2⟩
      change ((SymbolTable.define ⟨s, o :: os⟩ n).2.current).find? m = some x at hx
      rw [find?_define] at hx
      split_ifs at hx
      · cases hx; rfl
      · exact ht.1 m x hx

/-- A new scope has nothing in it that could be out of order. -/
lemma Sound.enter (ht : t.Sound) : t.enter.Sound :=
  ⟨.empty, fun _ hy => absurd hy List.not_mem_nil, ht⟩

/-- So it has no kinds that are out of place. -/
lemma Proper.enter {k : Nat} (ht : t.Proper k) : t.enter.Proper k :=
  ⟨fun n _ hx => absurd (hx.symm.trans (find?_empty n)) (by simp), ht⟩

/-- The name of a function takes no slot in it. -/
lemma Sound.bind_function (ht : t.Sound) (n : String) : (t.defineFunctionName n).2.Sound :=
  SoundChain.replace ht (Scope.Sound.bind_other (SoundChain.head ht) rfl (by simp)) rfl

/-- Inside of a function its own name is in place. -/
lemma Proper.bind_function {k : Nat} {s : Scope} {os : List Scope} (ht : Proper k ⟨s, os⟩)
    (hos : os ≠ []) (n : String) : ((SymbolTable.mk s os).defineFunctionName n).2.Proper k := by
  cases os with
  | nil => exact absurd rfl hos
  | cons o os =>
      refine ⟨fun m x hx => ?_, ht.2⟩
      change (s.bind _).find? m = some x at hx
      rw [find?_bind] at hx
      split_ifs at hx
      · cases hx; rfl
      · exact ht.1 m x hx

/-- A scope can be left only if there is one around it, and it leaves its captured names and the
number of its slots. -/
lemma leave_eq_some {summary : ScopeSummary} (h : t.leave = some (summary, t')) :
    ∃ o os, t.outer = o :: os ∧ t' = ⟨o, os⟩ ∧
      summary = ⟨t.current.free, t.current.definitions⟩ := by
  simp only [leave] at h
  split at h
  · cases h
  · next o os ho => cases h; exact ⟨o, os, ho, rfl, rfl⟩

/-- After a scope is left, what it captured can be loaded in the scope around it. -/
lemma loadable_of_leave {k : Nat} {summary : ScopeSummary} (ht : t.Sound) (hp : t.Proper k)
    (h : t.leave = some (summary, t')) : ∀ y ∈ summary.free, Loadable k t' y := by
  obtain ⟨o, os, ho, rfl, rfl⟩ := leave_eq_some h
  obtain ⟨s, os'⟩ := t
  cases ho
  intro y hy
  exact loadable_of_find? (t := ⟨o, os⟩) ht.2.2 hp.2 (ht.2.1 y hy).1

/-- Leaving a scope keeps a table sound. -/
lemma Sound.leave {summary : ScopeSummary} (ht : t.Sound) (h : t.leave = some (summary, t')) :
    t'.Sound := by
  obtain ⟨o, os, ho, rfl, rfl⟩ := leave_eq_some h
  obtain ⟨s, os'⟩ := t
  cases ho
  exact ht.2.2

/-- Leaving a scope keeps a table proper. -/
lemma Proper.leave {k : Nat} {summary : ScopeSummary} (ht : t.Proper k)
    (h : t.leave = some (summary, t')) : t'.Proper k := by
  obtain ⟨o, os, ho, rfl, rfl⟩ := leave_eq_some h
  obtain ⟨s, os'⟩ := t
  cases ho
  exact ht.2

/-- Where the compiler starts anew, it keeps the scope of the top level and no other. -/
lemma resetToGlobal_eq (t : SymbolTable) : t.resetToGlobal = ⟨t.outermost, []⟩ := by
  obtain ⟨s, os⟩ := t
  rcases List.eq_nil_or_concat os with rfl | ⟨os, o, rfl⟩
  · rfl
  · simp [resetToGlobal, outermost]

/-- What was kept is sound. -/
lemma Sound.resetToGlobal (ht : t.Sound) : t.resetToGlobal.Sound := by
  rw [resetToGlobal_eq]
  exact SoundChain.outermost ht

/-- A proper table is proper when it is reset to its top level. -/
lemma Proper.resetToGlobal {k : Nat} (ht : t.Proper k) : t.resetToGlobal.Proper k := by
  rw [resetToGlobal_eq]
  exact fun n x hx => ProperChain.outermost ht hx

@[simp] lemma outermost_resetToGlobal (t : SymbolTable) :
    t.resetToGlobal.outermost = t.outermost := by
  rw [resetToGlobal_eq, outermost_nil]

end

/-! ## The table that knows the builtins -/

/-- Binding builtins keeps a table of the top level in order. -/
lemma sound_builtins (bs : List (Builtin × Nat)) (k : Nat) {s : Scope} (hs : s.Sound)
    (hf : s.free = []) (hp : Proper k ⟨s, []⟩) (hb : ∀ p ∈ bs, p.2 < k) :
    ∃ s' : Scope, bs.foldl (fun (t : SymbolTable) (b, i) => (t.defineBuiltin b.name i).2)
      ⟨s, []⟩ = ⟨s', []⟩ ∧ s'.Sound ∧ s'.free = [] ∧ Proper k ⟨s', []⟩ := by
  induction bs generalizing s with
  | nil => exact ⟨s, rfl, hs, hf, hp⟩
  | cons p bs ih =>
      obtain ⟨b, i⟩ := p
      rw [List.foldl_cons]
      refine ih (s := s.bind ⟨b.name, .builtin, i⟩) (hs.bind_other rfl (by simp)) hf ?_
        (fun q hq => hb q (List.mem_cons_of_mem _ hq))
      intro n x hx
      rw [find?_bind] at hx
      split_ifs at hx
      · cases hx; exact .inr ⟨rfl, hb (b, i) (by simp)⟩
      · exact hp n x hx

/-- A place in a list is less than its length. -/
lemma mem_zipIdx_lt {α : Type} {xs : List α} {p : α × Nat} (h : p ∈ xs.zipIdx) :
    p.2 < xs.length := by
  obtain ⟨x, i⟩ := p
  simpa using (List.mem_zipIdx h).2.1

/-- A table that only knows the builtins is in order. -/
lemma builtinSymbols_eq (bs : List Builtin) :
    ∃ s, Compiler.builtinSymbols bs = ⟨s, []⟩ ∧ s.Sound ∧ s.free = [] ∧ Proper bs.length ⟨s, []⟩ :=
  sound_builtins bs.zipIdx bs.length .empty rfl (by intro n x hx; simp at hx)
    (fun _ hp => mem_zipIdx_lt hp)

end SymbolTable

end Marmoset
