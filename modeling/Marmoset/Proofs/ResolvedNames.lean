import Marmoset.Proofs.TableOperations

/-!
# What resolving a name does

`SymbolTable.plan` says how a name would be resolved, and `SymbolTable.resolve` resolves it.  The
first looks for the nearest scope that has the name; the second comes back from there through all
scopes on the way, and each captures what the one around it has captured just before.

* `Threaded` — the innermost scopes of a chain have captured a name, each from the next one.
* `SymbolTable.resolveIn_threaded` — resolving a name does this to the scopes that the plan lists.
* **`SymbolTable.resolve_refines_plan`** — the symbol, what changes, and that nothing is left to do
  afterwards.

What a function has captured is loaded only when all of it is compiled, and by then much may have
happened in it and in the functions inside it.

* `SymbolTable.staysAt` — operations that do not leave a scope.
* **`SymbolTable.captures_after_leave`** — a scope that is left lists its captures as the scope
  around it knows them, each at the index that was given out for it.
-/

namespace Marmoset

open Scope

/-- The first `j` scopes of a chain, given from the inside out, have captured the name, each what
the next one knows under it; the others are as they were. -/
structure Threaded (n : String) (j : Nat) (ss ss' : List Scope) : Prop where
  inner : ∀ k < j, ∃ inner outer y, ss[k]? = some inner ∧ ss'[k + 1]? = some outer ∧
    outer.find? n = some y ∧ ss'[k]? = some (inner.capture y).2
  outer : ∀ k, j ≤ k → ss'[k]? = ss[k]?

namespace Threaded

variable {n : String} {j : Nat} {ss ss' : List Scope}

/-- Nothing is captured. -/
lemma rfl : Threaded n 0 ss ss :=
  ⟨fun k hk => absurd hk k.not_lt_zero, fun _ _ => Eq.refl _⟩

/-- If no scope captures, none changes. -/
lemma eq (h : Threaded n 0 ss ss') : ss' = ss :=
  List.ext_getElem? fun k => h.outer k k.zero_le

/-- One more scope captures the name. -/
lemma cons {s o : Scope} {y : Symbol} (h : Threaded n j ss (o :: ss')) (hy : o.find? n = some y) :
    Threaded n (j + 1) (s :: ss) ((s.capture y).2 :: o :: ss') where
  inner k hk := by
    cases k with
    | zero => exact ⟨s, o, y, Eq.refl _, Eq.refl _, hy, Eq.refl _⟩
    | succ k => exact h.inner k (Nat.lt_of_succ_lt_succ hk)
  outer k hk := by
    cases k with
    | zero => exact absurd hk (Nat.not_succ_le_zero j)
    | succ k => exact h.outer k (Nat.le_of_succ_le_succ hk)

end Threaded

namespace SymbolTable

variable {t t' : SymbolTable} {n m : String} {x : Symbol} {s s' : Scope}
  {os os' ss ss' : List Scope}

/-! ## The nearest scope -/

/-- A scope that has the name is the nearest one. -/
lemma nearest_of_find? (h : s.find? n = some x) : nearest n (s :: ss) = some (x, ss.length) := by
  rw [nearest, h]

/-- Otherwise the nearest one is further out. -/
lemma nearest_of_find?_eq_none (h : s.find? n = none) : nearest n (s :: ss) = nearest n ss := by
  rw [nearest, h]

/-- The depth that is found is that of a scope of the chain. -/
lemma nearest_lt {d : Nat} (h : nearest n ss = some (x, d)) : d < ss.length := by
  induction ss with
  | nil => cases h
  | cons s ss ih =>
      cases hs : s.find? n with
      | some y =>
          rw [nearest_of_find? hs] at h
          cases h
          exact Nat.lt_succ_self _
      | none =>
          rw [nearest_of_find?_eq_none hs] at h
          exact Nat.lt_succ_of_lt (ih h)

/-- All that counts is what the name stands for in each scope. -/
lemma nearest_congr (h : List.Forall₂ (fun s s' : Scope => s'.find? n = s.find? n) ss ss') :
    nearest n ss' = nearest n ss := by
  induction h with
  | nil => rfl
  | cons hs hss ih => rw [nearest, nearest, hs, ih, hss.length_eq]

/-! ## Carrying out a plan -/

/-- A name can be resolved if some scope has it. -/
lemma resolveIn_eq_none : resolveIn n s os = none ↔ nearest n (s :: os) = none := by
  induction os generalizing s with
  | nil => cases hs : s.find? n <;> simp [resolveIn, nearest, hs]
  | cons o ol ih =>
      cases hs : s.find? n with
      | some y => simp [resolveIn, nearest, hs]
      | none =>
          rw [nearest_of_find?_eq_none hs, ← ih, resolveIn, hs]
          cases ho : resolveIn n o ol with
          | none => simp
          | some r => by_cases hk : r.1.kind.reachable <;> simp [hk]

/-- What other names stand for does not change. -/
lemma find?_resolveIn (h : resolveIn n s os = some (x, s', os')) (hm : m ≠ n) :
    List.Forall₂ (fun s s' : Scope => s'.find? m = s.find? m) (s :: os) (s' :: os') := by
  have hsame (ss : List Scope) : List.Forall₂ (fun s s' : Scope => s'.find? m = s.find? m) ss ss :=
    List.forall₂_same.mpr fun _ _ => rfl
  induction os generalizing s s' os' x with
  | nil =>
      rcases resolveIn_cases h with ⟨-, rfl, rfl⟩ | ⟨o, ol, o', ol', y, he, -⟩
      · exact hsame _
      · cases he
  | cons o ol ih =>
      rcases resolveIn_cases h with ⟨-, rfl, rfl⟩ | ⟨o, ol, o', ol', y, he, rfl, -, ho, hy⟩
      · exact hsame _
      · cases he
        refine .cons ?_ (ih ho)
        rcases hy with ⟨-, -, rfl⟩ | ⟨-, -, rfl⟩
        · rfl
        · have hname : y.name = n := name_of_resolveIn ho
          show (s.bind _).find? m = s.find? m
          rw [find?_bind, if_neg fun he => hm (he.symm.trans hname)]

/-- How many scopes have to capture a symbol that the scope at depth `d` has, if `depth` is that of
the current one. -/
def toCapture (y : Symbol) (d depth : Nat) : Nat :=
  if y.kind.reachable then 0 else depth - d

/-- **Resolving a name threads it through the scopes** between the nearest one that has it and the
current one. -/
lemma resolveIn_threaded (h : resolveIn n s os = some (x, s', os')) :
    ∃ y d, nearest n (s :: os) = some (y, d) ∧
      Threaded n (toCapture y d os.length) (s :: os) (s' :: os') ∧
      x = if toCapture y d os.length = 0 then y else ⟨n, .free, s.free.length⟩ := by
  induction os generalizing s s' os' x with
  | nil =>
      rcases resolveIn_cases h with ⟨hx, rfl, rfl⟩ | ⟨o, ol, o', ol', y, he, -⟩
      · refine ⟨x, 0, nearest_of_find? hx, ?_⟩
        have hj : toCapture x 0 ([] : List Scope).length = 0 := ite_self 0
        rw [hj]
        exact ⟨.rfl, rfl⟩
      · cases he
  | cons o ol ih =>
      rcases resolveIn_cases h with ⟨hx, rfl, rfl⟩ | ⟨o, ol, o', ol', z, he, rfl, hn, ho, hz⟩
      · refine ⟨x, (o :: ol).length, nearest_of_find? hx, ?_⟩
        have hj : toCapture x (o :: ol).length (o :: ol).length = 0 := by simp [toCapture]
        rw [hj]
        exact ⟨.rfl, rfl⟩
      · cases he
        obtain ⟨y, d, hnear, hthread, hzy⟩ := ih ho
        have hd : d < (o :: ol).length := nearest_lt hnear
        refine ⟨y, d, (nearest_of_find?_eq_none hn).trans hnear, ?_⟩
        cases hy : y.kind.reachable with
        | true =>
            -- nothing is captured further out, and nothing here
            have hj (depth : Nat) : toCapture y d depth = 0 := if_pos hy
            rw [hj] at hthread hzy ⊢
            obtain rfl : z = y := hzy
            obtain ⟨-, rfl, rfl⟩ | ⟨hk, -⟩ := hz
            · rw [hthread.eq]
              exact ⟨.rfl, rfl⟩
            · rw [hy] at hk
              cases hk
        | false =>
            have hj : toCapture y d (o :: ol).length = toCapture y d ol.length + 1 := by
              simp only [toCapture, hy, Bool.false_eq_true, if_false, List.length_cons] at hd ⊢
              omega
            have hk : z.kind.reachable = false := by
              rw [hzy]
              split_ifs
              · exact hy
              · rfl
            obtain ⟨hk', -⟩ | ⟨-, rfl, rfl⟩ := hz
            · rw [hk] at hk'
              cases hk'
            · have hfind : o'.find? n = some z :=
                (find?_of_resolveIn ho).resolve_right fun hr => by rw [hk] at hr; cases hr.1
              rw [hj]
              refine ⟨hthread.cons hfind, ?_⟩
              rw [if_neg (Nat.succ_ne_zero _), ← name_of_resolveIn ho]
              rfl

end SymbolTable

/-- What becomes of a table when the name `n` is resolved to `x` as it was planned. -/
structure Resolution.CarriedOut (p : Resolution) (n : String) (x : Symbol) (t t' : SymbolTable) :
    Prop where
  direct : p.captures = [] → x = p.symbol ∧ t' = t
  captured : p.captures ≠ [] → x = ⟨n, .free, t.current.free.length⟩
  /-- Each scope that is listed captures what the scope around it then knows under the name. -/
  listed : ∀ d ∈ p.captures, ∃ inner outer y, t.scopes[d]? = some inner ∧
    t'.scopes[d - 1]? = some outer ∧ outer.find? n = some y ∧
    t'.scopes[d]? = some ⟨⟨n, .free, inner.free.length⟩ :: inner.symbols, inner.free ++ [y],
      inner.definitions⟩
  others : ∀ d, d ∉ p.captures → t'.scopes[d]? = t.scopes[d]?
  definitions : t'.scopes.map Scope.definitions = t.scopes.map Scope.definitions
  elsewhere : ∀ m, m ≠ n → t'.plan m = t.plan m
  /-- Nothing is left to be done for the name. -/
  settled : ∃ d, t'.plan n = some ⟨x, d, []⟩
  again : t'.resolve n = some (x, t')

namespace SymbolTable

variable {t t' : SymbolTable} {n m : String} {x : Symbol}

/-- There is a plan for a name if some scope has it. -/
lemma plan_eq_none : t.plan n = none ↔ nearest n (t.current :: t.outer) = none := by
  rw [plan]
  split <;> simp_all

/-- The plan lists the scopes further in than the one that has the name, unless the symbol is
reached from everywhere. -/
lemma plan_eq {y : Symbol} {d : Nat} (h : nearest n (t.current :: t.outer) = some (y, d)) :
    t.plan n = some ⟨y, d, (List.range (toCapture y d t.depth)).map (d + 1 + ·)⟩ := by
  rw [plan, h]
  cases hy : y.kind.reachable <;> simp [toCapture, hy]

/-- A name can be resolved if there is a plan for it. -/
lemma resolve_eq_none : t.resolve n = none ↔ t.plan n = none := by
  rw [plan_eq_none, ← resolveIn_eq_none, resolve]
  split <;> simp_all

/-- What the current scope has is found there. -/
lemma plan_of_find? (h : t.current.find? n = some x) : t.plan n = some ⟨x, t.depth, []⟩ := by
  have hj : toCapture x t.depth t.depth = 0 := by simp [toCapture]
  rw [plan_eq (nearest_of_find? h), ← depth, hj]
  rfl

/-- A name of the current scope is resolved without a change. -/
lemma resolve_of_find? (h : t.current.find? n = some x) : t.resolve n = some (x, t) := by
  obtain ⟨s, os⟩ := t
  change s.find? n = some x at h
  cases os <;> simp [resolve, resolveIn, h]

/-- The plans for other names stay as they are. -/
lemma plan_resolve_of_ne (h : t.resolve n = some (x, t')) (hm : m ≠ n) : t'.plan m = t.plan m := by
  have hnear := nearest_congr (find?_resolveIn (resolve_eq_some h) hm)
  rw [plan, plan, hnear, depth_resolve h]

/-- Resolving gives no slots. -/
lemma definitions_resolve (h : t.resolve n = some (x, t')) :
    t'.scopes.map Scope.definitions = t.scopes.map Scope.definitions := by
  obtain ⟨hc, hcs⟩ := resolve_captures h
  have hmap (ss ss' : List Scope) (hss : List.Forall₂ Captures ss ss') :
      ss'.map Scope.definitions = ss.map Scope.definitions := by
    induction hss with
    | nil => rfl
    | cons hs _ ih => rw [List.map_cons, List.map_cons, hs.definitions, ih]
  rw [scopes, scopes, List.map_reverse, List.map_reverse, hmap _ _ (.cons hc hcs)]

/-- The depths that a plan lists, and where these scopes stand from the inside out. -/
lemma mem_captures {y : Symbol} {d e : Nat} :
    e ∈ (List.range (toCapture y d t.depth)).map (d + 1 + ·) ↔
      d < e ∧ e ≤ t.depth ∧ t.depth - e < toCapture y d t.depth := by
  simp only [List.mem_map, List.mem_range, toCapture]
  cases y.kind.reachable with
  | true => simp
  | false =>
      simp only [Bool.false_eq_true, if_false]
      constructor
      · rintro ⟨i, hi, rfl⟩
        omega
      · intro he
        exact ⟨e - (d + 1), by omega, by omega⟩

section

variable {y : Symbol} {d e : Nat} (hdepth : t'.depth = t.depth)
  (hthread : Threaded n (toCapture y d t.depth) (t.current :: t.outer) (t'.current :: t'.outer))

include hthread

/-- Without anything to capture the table stays as it is. -/
lemma eq_of_threaded (hj : toCapture y d t.depth = 0) : t' = t := by
  rw [hj] at hthread
  injection hthread.eq with hcurrent houter
  cases t
  cases t'
  cases hcurrent
  cases houter
  rfl

include hdepth

/-- A scope that is listed has captured what the one around it has. -/
lemma listed_of_threaded (he : e ∈ (List.range (toCapture y d t.depth)).map (d + 1 + ·)) :
    ∃ inner outer z, t.scopes[e]? = some inner ∧ t'.scopes[e - 1]? = some outer ∧
      outer.find? n = some z ∧ t'.scopes[e]? =
        some ⟨⟨n, .free, inner.free.length⟩ :: inner.symbols, inner.free ++ [z],
          inner.definitions⟩ := by
  obtain ⟨hde, hed, hk⟩ := mem_captures.mp he
  obtain ⟨inner, outer, z, hi, ho, hz, hc⟩ := hthread.inner _ hk
  refine ⟨inner, outer, z, ?_, ?_, hz, ?_⟩
  · rw [getElem?_scopes hed, hi]
  · rw [getElem?_scopes (by omega), hdepth, ← ho, show t.depth - (e - 1) = t.depth - e + 1 by omega]
  · rw [getElem?_scopes (by omega), hdepth, hc, ← name_of_find? hz]
    rfl

/-- Scopes that are not listed stay as they are. -/
lemma others_of_threaded (he : e ∉ (List.range (toCapture y d t.depth)).map (d + 1 + ·)) :
    t'.scopes[e]? = t.scopes[e]? := by
  by_cases hed : e ≤ t.depth
  · rw [getElem?_scopes hed, getElem?_scopes (by omega), hdepth]
    refine hthread.outer _ ?_
    have hout := mt mem_captures.mpr he
    simp only [toCapture] at hout ⊢
    split_ifs at hout ⊢ <;> omega
  · have hlength (u : SymbolTable) : u.scopes.length = u.depth + 1 := List.length_reverse
    rw [List.getElem?_eq_none (by rw [hlength]; omega),
      List.getElem?_eq_none (by rw [hlength]; omega)]

end

/-- **Resolving a name carries out its plan.**  A name can be resolved if there is a plan for it.
If the plan lists no scopes, it tells the symbol and nothing changes; otherwise the listed scopes
capture the name and the symbol is the last capture of the current scope.  After that the name is
resolved to the same symbol without a change, and neither the plans for other names nor the numbers
of definitions have changed. -/
theorem resolve_refines_plan (t : SymbolTable) (n : String) :
    (t.resolve n = none ↔ t.plan n = none) ∧
      ∀ p, t.plan n = some p → ∃ x t', t.resolve n = some (x, t') ∧ p.CarriedOut n x t t' := by
  refine ⟨resolve_eq_none, fun p hp => ?_⟩
  have hsome : t.resolve n ≠ none := fun h => by rw [resolve_eq_none.mp h] at hp; cases hp
  obtain ⟨⟨x, t'⟩, hr⟩ := Option.ne_none_iff_exists'.mp hsome
  obtain ⟨y, d, hnear, hthread, hx⟩ := resolveIn_threaded (resolve_eq_some hr)
  change Threaded n (toCapture y d t.depth) _ _ at hthread
  change x = if toCapture y d t.depth = 0 then y else _ at hx
  obtain rfl : _ = p := Option.some.inj ((plan_eq hnear).symm.trans hp)
  have hdepth := depth_resolve hr
  have hnone : (List.range (toCapture y d t.depth)).map (d + 1 + ·) = [] ↔
      toCapture y d t.depth = 0 := by
    rw [List.map_eq_nil_iff, List.range_eq_nil]
  have hdone : (∃ d', t'.plan n = some ⟨x, d', []⟩) ∧ t'.resolve n = some (x, t') := by
    by_cases hj : toCapture y d t.depth = 0
    · rw [if_pos hj] at hx
      rw [hnone.mpr hj, ← hx] at hp
      rw [eq_of_threaded hthread hj] at hr ⊢
      exact ⟨⟨d, hp⟩, hr⟩
    · have hfind : t'.current.find? n = some x := by
        refine (find?_of_resolveIn (resolve_eq_some hr)).resolve_right fun h => ?_
        rw [hx, if_neg hj] at h
        cases h.1
      exact ⟨⟨_, plan_of_find? hfind⟩, resolve_of_find? hfind⟩
  refine ⟨x, t', hr, ?_⟩
  constructor
  case direct =>
    intro hcaptures
    have hj := hnone.mp hcaptures
    exact ⟨hx.trans (if_pos hj), eq_of_threaded hthread hj⟩
  case captured => exact fun hcaptures => hx.trans (if_neg (mt hnone.mpr hcaptures))
  case listed => exact fun e he => listed_of_threaded hdepth hthread he
  case others => exact fun e he => others_of_threaded hdepth hthread he
  case definitions => exact definitions_resolve hr
  case elsewhere => exact fun m hm => plan_resolve_of_ne hr hm
  case settled => exact hdone.1
  case again => exact hdone.2

/-- A name of the outermost of three functions, used in the innermost one. -/
example :
    let t := after [.enter, .define "a", .define "b", .enter, .resolve "a", .enter]
    t.plan "b" = some ⟨⟨"b", .local, 1⟩, 1, [2, 3]⟩ ∧
      (t.resolve "b").map (fun r => (r.1, r.2.scopes.map Scope.free)) =
        some (⟨"b", .free, 0⟩,
          [[], [], [⟨"a", .local, 0⟩, ⟨"b", .local, 1⟩], [⟨"b", .free, 1⟩]]) := by
  decide

/-! ## Captures of a scope that is left -/

/-- The scope at depth `d` is not left by the operations, and is the current one after them. -/
def staysAt (d : Nat) (t : SymbolTable) : List Operation → Bool
  | [] => t.depth == d
  | op :: ops => decide (d ≤ t.depth) && staysAt d (t.apply op) ops

/-- The scope at depth `d` captures what it captured before in the same order, and possibly more. -/
def KeepsCaptures (d : Nat) (t t' : SymbolTable) : Prop :=
  ∃ s s', t.scopes[d]? = some s ∧ t'.scopes[d]? = some s' ∧ s.free <+: s'.free

lemma exists_scope {d : Nat} (hd : d ≤ t.depth) : ∃ s, t.scopes[d]? = some s := by
  have hlength : t.scopes.length = t.depth + 1 := List.length_reverse
  exact ⟨_, List.getElem?_eq_getElem (hlength ▸ Nat.lt_succ_of_le hd)⟩

/-- The current scope is the last one. -/
lemma scopes_depth (t : SymbolTable) : t.scopes[t.depth]? = some t.current := by
  rw [getElem?_scopes (Nat.le_refl _), Nat.sub_self, List.getElem?_cons_zero]

namespace KeepsCaptures

variable {d : Nat} {t'' : SymbolTable} {ss : List Scope}

/-- A scope that did not change keeps its captures. -/
lemma of_eq (hd : d ≤ t.depth) (h : t'.scopes[d]? = t.scopes[d]?) : KeepsCaptures d t t' := by
  obtain ⟨s, hs⟩ := exists_scope hd
  exact ⟨s, s, hs, h.trans hs, List.prefix_rfl⟩

/-- What is kept twice is kept. -/
lemma trans (h : KeepsCaptures d t t') (h' : KeepsCaptures d t' t'') : KeepsCaptures d t t'' := by
  obtain ⟨s, s₁, hs, hs₁, hfree⟩ := h
  obtain ⟨s₂, s', hs₂, hs', hfree'⟩ := h'
  obtain rfl : s₁ = s₂ := Option.some.inj (hs₁.symm.trans hs₂)
  exact ⟨s, s', hs, hs', hfree.trans hfree'⟩

/-- The scopes are the same in number, and each may have captured something. -/
lemma of_forall₂ (h : List.Forall₂ (fun s s' : Scope => s.free <+: s'.free) t.scopes t'.scopes)
    (hd : d ≤ t.depth) : KeepsCaptures d t t' := by
  obtain ⟨s, hs⟩ := exists_scope hd
  obtain ⟨hlt, rfl⟩ := List.getElem?_eq_some_iff.mp hs
  have hlt' : d < t'.scopes.length := h.length_eq ▸ hlt
  exact ⟨_, _, hs, List.getElem?_eq_getElem hlt', h.get hlt hlt'⟩

/-- Only the current scope has changed, and captures the same. -/
lemma of_current (ho : t'.outer = t.outer) (hc : t'.current.free = t.current.free)
    (hd : d ≤ t.depth) :
    KeepsCaptures d t t' := by
  refine of_forall₂ (List.rel_reverse (.cons (hc ▸ List.prefix_rfl) ?_)) hd
  rw [ho]
  exact List.forall₂_same.mpr fun _ _ => List.prefix_rfl

end KeepsCaptures

/-- A scope that an operation does not leave keeps its captures. -/
lemma keepsCaptures_apply {d : Nat} {op : Operation} (hd : d ≤ t.depth)
    (hd' : d ≤ (t.apply op).depth) :
    KeepsCaptures d t (t.apply op) := by
  cases op with
  | define _ | defineBuiltin _ _ | defineFunctionName _ => exact .of_current rfl rfl hd
  | plan _ => exact .of_eq hd rfl
  | enter =>
      have hlength : t.scopes.length = t.depth + 1 := List.length_reverse
      have hscopes : t.enter.scopes = t.scopes ++ [.empty] := List.reverse_cons
      refine .of_eq hd ?_
      rw [apply, hscopes, List.getElem?_append_left (by omega)]
  | leave =>
      cases hl : t.leave with
      | none =>
          refine .of_eq hd ?_
          rw [apply, hl]
          rfl
      | some r =>
          obtain ⟨summary, t'⟩ := r
          have happly : t.apply .leave = t' := by rw [apply, hl]; rfl
          obtain ⟨o, os, ho, rfl, -⟩ := leave_eq_some hl
          have hscopes : t.scopes = SymbolTable.scopes ⟨o, os⟩ ++ [t.current] := by
            rw [scopes, ho, List.reverse_cons]
            rfl
          have hlength : (SymbolTable.scopes ⟨o, os⟩).length = os.length + 1 := List.length_reverse
          rw [happly] at hd' ⊢
          refine .of_eq hd ?_
          rw [hscopes, List.getElem?_append_left (hlength ▸ Nat.lt_succ_of_le hd')]
  | resetToGlobal =>
      have hzero : d = 0 := by
        rw [apply, resetToGlobal_eq] at hd'
        exact Nat.le_zero.mp hd'
      refine .of_eq hd ?_
      rw [apply, resetToGlobal_eq, hzero, ← List.head?_eq_getElem? (l := t.scopes), scopes, scopes,
        List.head?_reverse, List.getLast?_cons, outermost, List.getLastD_eq_getLast?]
      rfl
  | resolve n =>
      cases hr : t.resolve n with
      | none =>
          refine .of_eq hd ?_
          rw [apply, hr]
          rfl
      | some r =>
          obtain ⟨x, t'⟩ := r
          have happly : t.apply (.resolve n) = t' := by rw [apply, hr]; rfl
          obtain ⟨hc, hcs⟩ := resolve_captures hr
          rw [happly]
          exact .of_forall₂ (List.rel_reverse (.cons hc.free (hcs.imp fun _ _ h => h.free))) hd

/-- So does one that is not left by all of them. -/
lemma keepsCaptures_of_staysAt {d : Nat} {ops : List Operation} (h : t.staysAt d ops = true) :
    (ops.foldl apply t).depth = d ∧ KeepsCaptures d t (ops.foldl apply t) := by
  have hle {t : SymbolTable} {ops : List Operation} (h : t.staysAt d ops = true) : d ≤ t.depth := by
    cases ops with
    | nil => exact Nat.le_of_eq (eq_of_beq h).symm
    | cons op ops =>
        rw [staysAt, Bool.and_eq_true, decide_eq_true_iff] at h
        exact h.1
  induction ops generalizing t with
  | nil => exact ⟨eq_of_beq h, .of_eq (hle h) rfl⟩
  | cons op ops ih =>
      have hd := hle h
      rw [staysAt, Bool.and_eq_true] at h
      obtain ⟨hdepth, hkeeps⟩ := ih h.2
      exact ⟨hdepth, (keepsCaptures_apply hd (hle h.2)).trans hkeeps⟩

/-- A free symbol that a name was resolved to counts a capture of that name. -/
lemma Sound.capture_of_resolve (ht : t.Sound) (h : t.resolve n = some (x, t'))
    (hx : x.kind = .free) :
    x.name = n ∧ ∃ y, t'.current.free[x.index]? = some y ∧ y.name = n := by
  have hfind : t'.current.find? n = some x := by
    refine (find?_of_resolveIn (resolve_eq_some h)).resolve_right fun hr => ?_
    rw [hx] at hr
    cases hr.1
  exact ⟨name_of_find? hfind, (SoundChain.head (ht.resolve h)).captured hfind hx⟩

/-- **Captures are loaded from where the enclosing scope keeps them.**  A function that is left
lists what it captured. Each symbol of the list is what its name stands for in the scope around; and
a free symbol that some name was resolved to while the scope was current, whatever was done since
then inside it and inside functions in it, has that name and counts the place of the name in the
list. -/
theorem captures_after_leave (ops : List Operation) (h : 1 ≤ (after ops).depth) :
    ∃ summary t', (after ops).leave = some (summary, t') ∧
      (∀ y ∈ summary.free, t'.findHere? y.name = some y) ∧
      ∀ before n since x t₁, ops = before ++ .resolve n :: since →
        (after before).resolve n = some (x, t₁) →
        t₁.staysAt (after before).depth since = true → x.kind = .free →
        x.name = n ∧ ∃ y, summary.free[x.index]? = some y ∧ y.name = n := by
  obtain ⟨o, os, ho⟩ := List.exists_cons_of_length_pos h
  have hleave : (after ops).leave =
      some (⟨(after ops).current.free, (after ops).current.definitions⟩, ⟨o, os⟩) := by
    rw [leave, ho]
  have hsound := after_sound ops
  refine ⟨_, _, hleave, fun y hy => ?_, ?_⟩
  · rw [Sound, ho] at hsound
    exact (hsound.2.1 y hy).1
  · rintro before n since x t₁ rfl hr hstays hx
    have hafter : after (before ++ .resolve n :: since) = since.foldl apply t₁ := by
      have happly : (after before).apply (.resolve n) = t₁ := by rw [apply, hr]; rfl
      rw [after, List.foldl_append, List.foldl_cons, ← after, happly]
    obtain ⟨hname, y, hy, hyname⟩ := (after_sound before).capture_of_resolve hr hx
    rw [← depth_resolve hr] at hstays
    obtain ⟨hdepth, s, s', hs, hs', later, hlater⟩ := keepsCaptures_of_staysAt hstays
    rw [scopes_depth, Option.some.injEq] at hs
    rw [← hdepth, scopes_depth, Option.some.injEq] at hs'
    refine ⟨hname, y, ?_, hyname⟩
    rw [hafter, hs', ← hlater, ← hs,
      List.getElem?_append_left (List.getElem?_eq_some_iff.mp hy).1, hy]

/-- A function captures `a`.  Then it binds the name anew, a function inside it binds `b`, and
another one captures `b` through it. -/
def captureAndGoOn : List Operation :=
  [.enter, .define "a", .define "b", .enter, .resolve "a", .define "a", .enter, .define "b",
    .leave, .enter, .resolve "b", .leave, .resolve "b"]

/-- The first capture of the function that is left is `a`, and the scope around it has it under that
name. -/
theorem captures_of_captureAndGoOn :
    1 ≤ (after captureAndGoOn).depth ∧
      ∃ summary t', (after captureAndGoOn).leave = some (summary, t') ∧
      (∀ y ∈ summary.free, t'.findHere? y.name = some y) ∧ ∃ y, summary.free[0]? = some y ∧
      y.name = "a" := by
  have hdepth : 1 ≤ (after captureAndGoOn).depth := by decide
  obtain ⟨summary, t', hleave, hfree, hresolved⟩ := captures_after_leave captureAndGoOn hdepth
  refine ⟨hdepth, summary, t', hleave, hfree, ?_⟩
  exact (hresolved [.enter, .define "a", .define "b", .enter] "a" _ ⟨"a", .free, 0⟩ _ rfl rfl
    (by decide) rfl).2

end SymbolTable

end Marmoset
