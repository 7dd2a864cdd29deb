import Marmoset.Proofs.Following

/-!
# Names in use

A name in an expression is loaded by the machine and looked up by the evaluator; a function that is
made captures the values of the names that it takes from outside.

* **`Joint.Agrees.ident`** — what a name is resolved to stands for what it is bound to.
* `Machine.Safe.leads_loads` — a closure is made of the values of the symbols that it captures.
* **`Joint.Agrees.newFunction`** — it is the compiled form of the function that the evaluator makes.
-/

namespace Marmoset

/-- A global that is found is bound. -/
lemma Link.slot {W : World} {es : Array Environment} {s : Scope} {os : List Scope} {e i : Nat}
    {n : String} (h : Link W es s os e n (.global i)) : W.slots n = some i := by
  generalize hp : Found.global i = p at h
  induction h with
  | captured _ _ _ _ => cases hp
  | global hg _ _ =>
      cases hp
      exact hg
  | builtin _ _ _ => cases hp
  | outer _ _ _ _ ih => exact ih hp

/-- The builtin that has a place in the table has its name. -/
lemma Builtin.ofName?_of_table {i : Nat} {n : String} (h : table[i]?.map name = some n) :
    ∃ b, table[i]? = some b ∧ ofName? n = some b := by
  obtain ⟨b, hb, rfl⟩ := Option.map_eq_some_iff.mp h
  refine ⟨b, hb, ?_⟩
  cases b with
  | len | puts | first | last | rest | push => decide

namespace Joint.Agrees

variable {left env : Nat} {free : List Symbol} {t t' : SymbolTable} {known : List String}
  {b : Joint} {n : String}
  {x : Symbol}

/-- A symbol that is captured stands for the value of its name. -/
lemma captured (ha : b.Agrees left env free t known) (hp : t.Proper Builtin.table.length)
    (hc : t.current.Captures t'.current) (hs : t'.Sound) (hf : t'.current.free <+: free)
    (hx : t'.current.find? n = some x) (hreach : x.kind.reachable = false)
    (huse : n ∈ known ∨ (n ∉ (b.world.scopes env).bound ∧ n ∈ (b.world.scopes env).free))
    (hz : t.outer ≠ [] → n ∈ known → n ∈ (b.world.scopes env).frozen) :
    ∃ v, Link b.world b.store.environments t.current t.outer env n (.captured v) ∧
      (b.machine.denotes x).Like b.store.functions.size v := by
  rcases huse with hk | ⟨hnb, hn⟩
  · obtain ⟨y, v, hy, ho, -, -, hv, hlike⟩ := ha.owns n hk
    have hxy : x = y := Option.some.inj (hx.symm.trans (hc.keeps hy))
    subst hxy
    obtain ⟨s, os⟩ := t
    cases os with
    | nil =>
        rcases hp n x hy with hg | ⟨hg, -⟩ <;> rw [hg] at hreach <;> cases hreach
    | cons o os =>
        refine ⟨v, .captured hv (hz (List.cons_ne_nil o os) hk) hy fun hfree => ?_, hlike⟩
        rw [hfree] at ho
        simp [SymbolKind.owned] at ho
  · have hfree : x.kind = .free := by
      rcases hc.adds hx with hx' | ⟨-, hk⟩
      · rcases ha.named n x hx' with hk | ⟨hk, -⟩ | hb
        · exact hk
        · rw [hk] at hreach
          cases hreach
        · exact absurd hb hnb
      · exact hk
    obtain ⟨y, hy, rfl⟩ := hs.head.captured hx hfree
    have hj : free[x.index]? = some y := by
      obtain ⟨rest, rfl⟩ := hf
      rw [List.getElem?_append_left (List.getElem?_eq_some_iff.mp hy).1, hy]
    obtain ⟨v, v', hlink, hv', hlike⟩ := ha.frees x.index y hj hn hnb
    refine ⟨v, hlink, ?_⟩
    simp only [Machine.denotes, hfree, Array.getD_eq_getD_getElem?, hv', Option.getD_some]
    exact hlike

/-- **What a name is resolved to stands for what it is bound to.** -/
theorem ident (ha : b.Agrees left env free t known) (hs : t.Sound)
    (hp : t.Proper Builtin.table.length) (hr : t.resolve n = some (x, t'))
    (hf : t'.current.free <+: free)
    (huse : n ∈ known ∨ (n ∉ (b.world.scopes env).bound ∧ n ∈ (b.world.scopes env).free)) :
    ∃ v, Eval.lookup env n b.store = .ok v b.store ∧
      (b.machine.denotes x).Like b.store.functions.size v := by
  have hres := SymbolTable.resolve_eq_some hr
  have hok {v : Value} (hv : b.store.lookup env n = some v) : Eval.lookup env n b.store =
      .ok v b.store := by
    rw [Eval.lookup, hv]
  rcases huse with hk | ⟨hnb, hn⟩
  · obtain ⟨y, v, hy, -, -, -, hv, hlike⟩ := ha.owns n hk
    rcases SymbolTable.resolveIn_cases hres with ⟨hx, -, -⟩ | ⟨_, _, _, _, _, -, -, hnone, -⟩
    · cases hx.symm.trans hy
      exact ⟨v, hok (Store.lookup_of_boundTo hv), hlike⟩
    · rw [hy] at hnone
      cases hnone
  · obtain ⟨p, hlink⟩ := ha.links n hn hnb
    have hlookup := hlink.lookup ha.core.fits
    have his := hlink.resolveIn hs hp hres
    cases p with
    | captured w =>
        have hx : t'.current.find? n = some x := by
          rcases SymbolTable.find?_of_resolveIn hres with hx | ⟨hreach, -⟩
          · exact hx
          · rw [show x.kind.reachable = false from his] at hreach
            cases hreach
        have hknown : n ∉ known := fun hk => by
          obtain ⟨_, v, -, -, -, -, hv, -⟩ := ha.owns n hk
          exact hnb (ha.core.fits.bound env n v hv)
        obtain ⟨v, hlink', hlike⟩ :=
          ha.captured hp (SymbolTable.resolve_captures hr).1 (hs.resolve hr) hf hx his
            (.inr ⟨hnb, hn⟩) fun _ hk => absurd hk hknown
        exact ⟨v, hok (hlink'.lookup ha.core.fits), hlike⟩
    | global i =>
        obtain ⟨hk, hi⟩ := his
        obtain ⟨v, hv, hlike⟩ := ha.core.globals hlink.slot
        refine ⟨v, hok (hlookup.trans hv), ?_⟩
        simp only [Machine.denotes, hk, hi]
        exact hlike
    | builtin =>
        obtain ⟨hk, hname⟩ := his
        obtain ⟨c, hc, hname'⟩ := Builtin.ofName?_of_table hname
        refine ⟨.builtin c, ?_, ?_⟩
        · rw [Eval.lookup, hlookup]
          simp only [Found.value?, hname']
        · simp only [Machine.denotes, hk, ha.core.builtins, hc, Option.map_some, Option.getD_some]
          exact .plain rfl

/-- A name that a new function uses is linked where the function is made. -/
lemma link (ha : b.Agrees left env free t known) (hp : t.Proper Builtin.table.length)
    (huse : n ∈ known ∨ (n ∉ (b.world.scopes env).bound ∧ n ∈ (b.world.scopes env).free))
    (hz : t.outer ≠ [] → n ∈ (b.world.scopes env).frozen) :
    ∃ p, Link b.world b.store.environments t.current t.outer env n p := by
  rcases huse with hk | ⟨hnb, hn⟩
  · obtain ⟨y, v, hy, ho, hslot, -, hv, -⟩ := ha.owns n hk
    have hlevel := ha.level
    obtain ⟨s, os⟩ := t
    cases os with
    | nil =>
        obtain rfl : env = 0 := hlevel.mp rfl
        rcases hp n y hy with hg | ⟨hg, -⟩
        · exact ⟨_, .global (hslot hg) hy hg⟩
        · simp [hg, SymbolKind.owned] at ho
    | cons o os =>
        refine ⟨.captured v, .captured hv (hz (List.cons_ne_nil o os)) hy fun hfree => ?_⟩
        simp [hfree, SymbolKind.owned] at ho
  · exact ha.links n hn hnb

end Joint.Agrees

/-! ## Functions -/

/-- The code that makes a closure of the function in a place of the pool. -/
abbrev closureCode (xs : List Symbol) (index : Nat) : List Instr :=
  xs.map Symbol.loadInstr ++ [⟨.closure, [index, xs.length]⟩]

namespace Machine

/-- The machine has loaded symbols one after the other. -/
structure Loaded (xs : List Symbol) (m m' : Machine) : Prop where
  eq : m' = { m.jump (m.frame.ip + extent (xs.map Symbol.loadInstr)) with
    stack := m'.stack, sp := m.sp + xs.length }
  below : ∀ i < m.sp, m'.stack.getD i .nil = m.stack.getD i .nil
  values : ∀ (j : Nat) x, xs[j]? = some x → m'.stack.getD (m.sp + j) .nil = m.denotes x

/-- A value on top of the stack changes nothing for the symbols. -/
lemma denotes_pushed {m : Machine} {x : Symbol} (hm : m.ground ≤ m.sp)
    (hi : x.kind = .local → x.index < m.frame.fn.locals.toNat) (ip : Nat) (v : Value) :
    ((m.jump ip).pushed v).denotes x = m.denotes x := by
  cases hk : x.kind with
  | «local» =>
      have hlt := hi hk
      rw [ground] at hm
      have hne : m.sp ≠ m.frame.base + x.index := by omega
      simp only [denotes, hk]
      exact getD_setIfInBounds_of_ne hne v
  | global | builtin | free | function =>
      simp only [denotes, hk]
      rfl

/-- Loading symbols leaves their values on the stack, the first one lowest. -/
lemma Safe.leads_loads {main : Code} {k g : Nat} {xs : List Symbol} {m : Machine}
    (h : m.Safe main k g) (hf : ∀ x ∈ xs, x.loadInstr.Fits)
    (hc : m.frame.fn.code.Holds m.frame.ip (xs.map Symbol.loadInstr)) :
    (Step.next m).Leads fun r => ∃ m', r = .next m' ∧ Loaded xs m m' ∧
      ∀ x ∈ xs, x.kind = .local → x.index < m.frame.fn.locals.toNat := by
  induction xs generalizing m with
  | nil => exact .here ⟨m, rfl, ⟨rfl, fun _ _ => rfl, nofun⟩, nofun⟩
  | cons x xs ih =>
      have hx := hf x List.mem_cons_self
      rw [List.map_cons] at hc
      obtain ⟨before, rest, hstands⟩ := h.stands hx hc.head
      have hrange := hstands.instr_inRange
      have hi (hk : x.kind = .local) : x.index < m.frame.fn.locals.toNat := by
        simp only [Symbol.loadInstr, hk] at hrange
        exact hrange
      set m₁ := (m.jump (m.frame.ip + x.loadInstr.size)).pushed (m.denotes x) with hm₁
      have hstep : (Step.next m).Leads fun r => r = .next m₁ ∧ m.sp < m.stack.size := by
        refine leads_of_instr hx hc.head ?_
        rw [h.execute_load hx hc.head]
        exact leads_push fun hroom => .here ⟨rfl, hroom⟩
      refine (hstep.safe h).bind ?_
      rintro r ⟨⟨rfl, hroom⟩, hs₁⟩
      have hbelow (i : Nat) (hlt : i < m.sp) : m₁.stack.getD i .nil = m.stack.getD i .nil :=
        getD_setIfInBounds_of_ne (Nat.ne_of_gt hlt) _
      refine (ih hs₁ (fun y hy => hf y (List.mem_cons_of_mem _ hy)) (hc.tail hx)).mono ?_
      rintro r ⟨m', rfl, hl, hi'⟩
      refine ⟨m', rfl, ⟨?_, ?_, ?_⟩, ?_⟩
      · rw [hl.eq, hm₁]
        simp only [pushed, jump, List.map_cons, extent_cons, List.length_cons, Nat.add_assoc,
          Nat.add_comm 1]
      · intro i hlt
        exact (hl.below i (Nat.lt_succ_of_lt hlt)).trans (hbelow i hlt)
      · intro j y hy
        cases j with
        | zero =>
            cases hy
            exact (hl.below m.sp (Nat.lt_succ_self _)).trans (getD_setIfInBounds_self hroom _)
        | succ j =>
            have hv := hl.values j y hy
            rw [show m₁.sp + j = m.sp + (j + 1) by simp only [hm₁, pushed, jump]; omega] at hv
            exact hv.trans (denotes_pushed h.floor_le (hi' y (List.mem_of_getElem? hy)) _ _)
      · intro y hy hk
        rcases List.mem_cons.mp hy with rfl | hy
        · exact hi hk
        · exact hi' y hy hk

/-- A closure is made of the values of the symbols that it captures. -/
lemma Safe.leads_closure {main : Code} {k g index : Nat} {fn : CompiledFunction} {xs : List Symbol}
    {m : Machine} (h : m.Safe main k g) (hfn : m.constants[index]? = some (.function fn))
    (hf : ∀ i ∈ closureCode xs index, i.Fits)
    (hc : m.frame.fn.code.Holds m.frame.ip (closureCode xs index)) :
    (Step.next m).Leads fun r => ∃ stack values,
      r = .next { m.jump (m.frame.ip + extent (closureCode xs index)) with
        stack := stack, sp := m.sp + 1, store := (m.store.newClosure ⟨fn, values⟩).2 } ∧
      (∀ i < m.sp, stack.getD i .nil = m.stack.getD i .nil) ∧
      stack.getD m.sp .nil = (m.store.newClosure ⟨fn, values⟩).1 ∧
      ∀ (j : Nat) x, xs[j]? = some x → values[j]? = some (m.denotes x) := by
  have hloads : ∀ i ∈ xs.map Symbol.loadInstr, i.Fits :=
    fun i hi => hf i (List.mem_append_left _ hi)
  refine ((h.leads_loads (fun x hx => hloads _ (List.mem_map_of_mem hx)) hc.left).safe h).bind ?_
  rintro r ⟨⟨m', rfl, hl, -⟩, hm⟩
  obtain ⟨stack, rfl⟩ : ∃ stack, m' = { m.jump (m.frame.ip + extent (xs.map Symbol.loadInstr)) with
    stack := stack, sp := m.sp + xs.length } := ⟨m'.stack, hl.eq⟩
  have hroom : m.sp + xs.length ≤ stack.size := hm.room
  have hvalues (j : Nat) (x : Symbol) (hj : xs[j]? = some x) :
      (stack.extract m.sp (m.sp + xs.length))[j]? = some (m.denotes x) := by
    have hlt := (List.getElem?_eq_some_iff.mp hj).1
    have hin : m.sp + j < stack.size := by omega
    have hv := hl.values j x hj
    simp only [Array.getD_eq_getD_getElem?, Array.getElem?_eq_getElem hin, Option.getD_some] at hv
    rw [Array.getElem?_extract, if_pos (by omega), Array.getElem?_eq_getElem hin, hv]
  refine leads_of_instr (hf _ (by simp)) (hc.right hloads) ?_
  have hip : m.frame.ip + extent (xs.map Symbol.loadInstr) +
      Instr.size ⟨.closure, [index, xs.length]⟩ = m.frame.ip + extent (closureCode xs index) := by
    rw [closureCode, extent_append, extent_cons, extent_nil]
    omega
  have hstep : execute (jump { m.jump (m.frame.ip + extent (xs.map Symbol.loadInstr)) with
        stack := stack, sp := m.sp + xs.length } (m.frame.ip + extent (xs.map Symbol.loadInstr) +
          Instr.size ⟨.closure, [index, xs.length]⟩)) .closure index xs.length =
      push { m.jump (m.frame.ip + extent (closureCode xs index)) with
        stack := stack,
        store := (m.store.newClosure ⟨fn, stack.extract m.sp (m.sp + xs.length)⟩).2 }
        (.closure m.store.closures.size) := by
    rw [hip]
    simp only [execute, makeClosure, jump, hfn, top, Nat.add_sub_cancel]
    rw [if_neg (by omega)]
    rfl
  refine hstep ▸ leads_push fun hlt => .here ⟨_, _, rfl, fun i hi => ?_, ?_, hvalues⟩
  · exact (getD_setIfInBounds_of_ne (Nat.ne_of_gt hi) _).trans (hl.below i hi)
  · exact getD_setIfInBounds_self hlt _

end Machine

namespace Joint

variable {left env : Nat} {free : List Symbol} {known : List String} {b : Joint} {d : Draft}
  {name : Option String}
  {params : List String} {body : List Stmt} {is : List Instr} {t t' : SymbolTable}
  {pool : Array Constant}
  {summary : ScopeSummary} {fn : CompiledFunction}

/-- **A closure of captured values is the compiled form of the function** that the evaluator makes
in its place. -/
theorem Agrees.compiled (ha : b.Agrees left env free d.symbols known)
    (hd : d.Good Builtin.table.length)
    (hbody : Emits (.stmts body) ⟨d.symbols.entry name params, d.constants⟩ 0 is ⟨t, pool⟩)
    (hleave : t.leave = some (summary, t')) (reads : fn.code.Reads (asBody is))
    (arity : fn.params = wordCount params.length)
    (hpool : pool.toList <+: b.machine.constants.toList) (hfree : t'.current.free <+: free)
    (hallow : Allowed (b.world.scopes env) d.symbols known
      (Expr.function name params body).mentions)
    (hdisc : Disciplined name params body) (hscopes : Stmt.scopesInOrder body = true)
    {values : Array Value}
    (hvalues : ∀ (j : Nat) y, summary.free[j]? = some y → values[j]? = some (b.machine.denotes y)) :
    Compiled b.world b.machine.constants b.store.environments b.store.functions.size
      ⟨name, params, body, env⟩
      ⟨fn, values⟩ := by
  have hgood := (hbody.good (hd.entry name params)).1
  have hcaptures := SymbolTable.captures_of_leave hbody.grows.outer hleave
  refine ⟨hd, hbody, reads, arity, hpool, hdisc, hscopes, ha.present, ?_, ?_⟩
  · intro n hn
    exact ha.link hd.proper (hallow.uses n hn) fun hne => hallow.captured hne n hn
  · intro j y hj hy
    obtain ⟨o, os, ho, rfl, rfl⟩ := SymbolTable.leave_eq_some hleave
    have hlinked : t.current.Linked o := by
      have hs := hgood.sound
      rw [SymbolTable.Sound, ho] at hs
      exact hs.2.1
    obtain ⟨hfind, hreach⟩ := hlinked y (List.mem_of_getElem? hj)
    obtain ⟨v, hlink, hlike⟩ :=
      ha.captured hd.proper hcaptures.1 (hgood.sound.leave hleave) hfree hfind hreach
        (hallow.uses _ hy) fun hne _ => hallow.captured hne _ hy
    exact ⟨v, _, hlink, hvalues j y hj, hlike⟩

/-- Both engines make a function. -/
lemma Core.newFunction (h : b.Core) {f : FunctionObject} {c : Closure}
    (hf : Compiled b.world b.machine.constants b.store.environments b.store.functions.size f c)
    (hc : CompilesTo f.name f.params f.body c.fn) {m : Machine}
    (hstore : m.store = (b.machine.store.newClosure c).2)
    (hconstants : m.constants = b.machine.constants) (hglobals : m.globals = b.machine.globals)
    (hbuiltins : m.builtins = b.machine.builtins) :
    Core ⟨b.world, m, (b.store.newFunction f).2⟩ where
  like := by
    show m.store.Like _
    rw [hstore]
    exact h.like.newFunction hc
  functions {i f'} hi := by
    have hsize : b.store.functions.size ≤ (b.store.newFunction f).2.functions.size := by
      simp [Store.newFunction]
    simp only [Store.newFunction, Array.getElem?_push] at hi
    simp only [hstore, hconstants, Store.newClosure, Array.getElem?_push, h.like.closures,
      Nat.add_right_cancel_iff]
    split_ifs at hi ⊢ with hlast
    · cases hi
      exact ⟨c, rfl, hf.later (.refl 0 _ _) hsize⟩
    · obtain ⟨c', hc', hcomp⟩ := h.functions hi
      exact ⟨c', hc', hcomp.later (.refl 0 _ _) hsize⟩
  fits := h.fits
  top := h.top
  globals {n i} hn := by
    obtain ⟨v, hv, hlike⟩ := h.globals hn
    refine ⟨v, hv, ?_⟩
    simp only [Machine.getGlobal, hglobals]
    exact hlike.mono (by simp [Store.newFunction])
  builtins := hbuiltins.trans h.builtins

/-- **A function is made.** -/
theorem Follows.function {c : Site} {main : Code} {k g : Nat} (call : Nat → List Value → Eval Value)
    (ha : b.Agrees c.left c.env c.free d.symbols known) (hs : b.machine.Safe main k g)
    (hd : d.Good Builtin.table.length)
    (hbody : Emits (.stmts body) ⟨d.symbols.entry name params, d.constants⟩ 0 is ⟨t, pool⟩)
    (hleave : t.leave = some (summary, t')) (reads : fn.code.Reads (asBody is))
    (arity : fn.params = wordCount params.length) (compiled : CompilesTo name params body fn)
    (hpool : (pool.push (.function fn)).toList <+: b.machine.constants.toList)
    (hfree : t'.current.free <+: c.free)
    (hallow : Allowed (b.world.scopes c.env) d.symbols known
      (Expr.function name params body).mentions)
    (hdisc : Disciplined name params body) (hscopes : Stmt.scopesInOrder body = true)
    (hfits : ∀ i ∈ closureCode summary.free pool.size, i.Fits)
    (hc : b.machine.frame.fn.code.Holds b.machine.frame.ip (closureCode summary.free pool.size)) :
    b.Follows c b.machine.sp (.next b.machine)
      ((Expr.function name params body).eval call c.env) fun v =>
      Arrived (Agrees c.left c.env c.free t' known)
        (b.machine.frame.ip + extent (closureCode summary.free pool.size)) b.machine.sp [v] := by
  have hgood := (hbody.good (hd.entry name params)).1
  have hcaptures := SymbolTable.captures_of_leave hbody.grows.outer hleave
  have hfn : b.machine.constants[pool.size]? = some (.function fn) :=
    getElem?_of_pool hpool (by simp)
  have hpool' : pool.toList <+: b.machine.constants.toList := List.IsPrefix.trans (by simp) hpool
  refine of_ok rfl ((hs.leads_closure hfn hfits hc).mono ?_)
  rintro r ⟨stack, values, rfl, hbelow, htop, hvalues⟩
  have hcompiled :=
    ha.compiled hd hbody hleave reads arity hpool' hfree hallow hdisc hscopes hvalues
  have hu : b.Undisturbed b.machine.sp ⟨b.world, { b.machine.jump
      (b.machine.frame.ip + extent (closureCode summary.free pool.size)) with
        stack := stack, sp := b.machine.sp + 1,
        store := (b.machine.store.newClosure ⟨fn, values⟩).2 },
      (b.store.newFunction ⟨name, params, body, c.env⟩).2⟩ :=
    ⟨⟨rfl, rfl, rfl, rfl⟩, rfl, rfl, rfl, rfl, hbelow, by simp [Store.newFunction],
      fun _ => .refl _ _ _⟩
  refine ⟨b.world, _, rfl, hu.keeps c.env, ?_, .single rfl rfl ?_⟩
  · have ha' :=
      ha.undisturbed hu hs.floor_le (ha.core.newFunction hcompiled compiled rfl rfl rfl rfl)
    exact ha'.captures hcaptures.1 hcaptures.2 (hgood.sound.leave hleave)
  · show (stack.getD b.machine.sp .nil).Like _ _
    rw [htop, Store.newClosure, ha.core.like.closures]
    exact .function (by simp)

end Joint

end Marmoset
