import Marmoset.Proofs.Following

/-!
# Stages of a run

Where the machine is about to run the code of a part of a program, and the evaluator to evaluate
this part, all that is known of both is put together in a `Site.Stage`.  What the engines agree in
there is left open, as long as it is stable.  Here is what a single instruction makes of a stage,
and how the code of a part leads to the stage behind it.

* `Site.Stage.first`, **`Site.Stage.bind`** — the code of a part and what comes behind it.
* `Site.Stage.instr`, `Site.Stage.silent` — the next instruction, and one that changes nothing but
  the place.
* `Site.Stage.binary`, `Site.Stage.apply`, … — the instructions that have a counterpart in the
  evaluator.
-/

namespace Marmoset

namespace Site

/-- The machine is about to run `is`, which stands at `pos` and was written from the draft `d` on.
By then `d'` is what the compiler has, and the engines agree as `A` says. -/
structure Stage (c : Site) (A : Joint → Prop) (d : Draft) (pos : Nat) (is : List Instr) (d' : Draft)
    (b : Joint) :
    Prop where
  stable : Joint.Stable A
  agrees : A b
  safe : b.machine.Safe c.main Builtin.table.length c.globals
  frames : b.machine.maxFrames = c.maxFrames
  depth : b.machine.maxFrames - b.machine.frameCount = c.left
  callers : b.machine.callers ≠ [] → c.env ≠ 0
  good : d.Good Builtin.table.length
  ip : b.machine.frame.ip = pos
  code : b.machine.frame.fn.code.Holds pos is
  fits : ∀ i ∈ is, i.Fits
  pool : d'.constants.toList <+: b.machine.constants.toList
  free : d'.symbols.current.free <+: c.free

end Site

namespace Site.Stage

open Joint (Arrived)

variable {c : Site} {A A₁ : Joint → Prop} {d d₁ d' : Draft} {pos h : Nat}
  {is rest : List Instr} {i : Instr}
  {b : Joint} {part : Part}

lemma core (hst : c.Stage A d pos is d' b) : b.Core :=
  hst.stable.core hst.agrees

lemma ground_le (hst : c.Stage A d pos is d' b) : b.machine.ground ≤ b.machine.sp :=
  hst.safe.floor_le

/-- The code of the first part. -/
lemma first (hst : c.Stage A d pos (is ++ rest) d' b) (hd : d₁.Grows d') :
    c.Stage A d pos is d₁ b :=
  { hst with
    code := hst.code.left
    fits := fun i hi => hst.fits i (List.mem_append_left _ hi)
    pool := hd.pool.trans hst.pool
    free := hd.current.free.trans hst.free }

/-- The code behind a part. -/
lemma next {b' : Joint} (hst : c.Stage A d pos (is ++ rest) d' b) (hA : Joint.Stable A₁)
    (ha : A₁ b') (hd : d₁.Good Builtin.table.length) (hk : b.Keeps c.env h b')
    (hs : b'.machine.Safe c.main Builtin.table.length c.globals)
    (hip : b'.machine.frame.ip = pos + extent is) :
    c.Stage A₁ d₁ (pos + extent is) rest d' b' where
  stable := hA
  agrees := ha
  safe := hs
  frames := hk.maxFrames.trans hst.frames
  depth := by
    rw [hk.maxFrames, Machine.frameCount, hk.callers]
    exact hst.depth
  callers := by
    rw [hk.callers]
    exact hst.callers
  good := hd
  ip := hip
  code := by
    rw [hk.frame.fn]
    exact hst.code.right fun i hi => hst.fits i (List.mem_append_left _ hi)
  fits i hi := hst.fits i (List.mem_append_right _ hi)
  pool := by
    rw [hk.constants]
    exact hst.pool
  free := hst.free

/-- **A part and what comes behind it.** -/
theorem bind {α β : Type} {x : Eval α} {f : α → Eval β} {Q : α → Joint → Prop}
    {Q' : β → Joint → Prop} {g : α → List Value} (hst : c.Stage A d pos (is ++ rest) d' b)
    (hem : Emits part d pos is d₁) (hg : b.machine.ground ≤ h) (hh : h ≤ b.machine.sp)
    (hA : Joint.Stable A₁) (hx : b.Follows c b.machine.sp (.next b.machine) x Q)
    (hq : ∀ v b', Q v b' → Arrived A₁ (pos + extent is) b.machine.sp (g v) b')
    (hf : ∀ v b', b.Keeps c.env b.machine.sp b' → c.Stage A₁ d₁ (pos + extent is) rest d' b' →
      Q v b' → b'.Follows c h (.next b'.machine) (f v) Q') :
    b.Follows c h (.next b.machine) (x >>= f) Q' := by
  have hbase : b.machine.frame.base ≤ h := by
    rw [Machine.ground] at hg
    omega
  have hx' : b.Follows c h (.next b.machine) x fun v b' => b.Keeps c.env b.machine.sp b' ∧ Q v b' :=
    hx.keeping hh fun v b' hk hv => ⟨hk, hv⟩
  refine hx'.bind hst.safe hbase hst.callers ?_
  rintro v b' - hs ⟨hk, hv⟩
  obtain ⟨ha, hat⟩ := hq v b' hv
  exact hf v b' hk (hst.next hA ha (hem.good hst.good).1 hk hs hat.ip) hv

/-- The next instruction is carried out, and then comes the code behind it. -/
lemma instr {α : Type} {x : Eval α} {Q : α → Joint → Prop} (hst : c.Stage A d pos (i :: rest) d' b)
    (hx : b.Follows c h ((b.machine.jump (pos + i.size)).execute i.op i.first i.second) x Q) :
    b.Follows c h (.next b.machine) x Q := by
  obtain rfl := hst.ip
  exact .instr (hst.fits i List.mem_cons_self) hst.code.head hx

/-- A step that an instruction takes is safe. -/
lemma safe_execute (hst : c.Stage A d pos (i :: rest) d' b) :
    ((b.machine.jump (pos + i.size)).execute i.op i.first i.second).Safe c.main Builtin.table.length
      c.globals := by
  obtain rfl := hst.ip
  rw [← Machine.step_of_instr (hst.fits i List.mem_cons_self) hst.code.head]
  exact hst.safe.step

/-- An instruction that moves the machine to another place and does nothing else. -/
lemma silent {α : Type} {x : Eval α} {Q : α → Joint → Prop} (ip sp : Nat)
    (hst : c.Stage A d pos (i :: rest) d' b)
    (hm : (b.machine.jump (pos + i.size)).execute i.op i.first i.second =
      .next (b.moved ip sp).machine)
    (hf : (b.moved ip sp).machine.Safe c.main Builtin.table.length c.globals →
      (b.moved ip sp).Follows c h (.next (b.moved ip sp).machine) x Q) :
    b.Follows c h (.next b.machine) x Q := by
  have hs := hst.safe_execute
  rw [hm] at hs
  refine hst.instr ?_
  rw [hm]
  exact .of_moved ip sp (hf hs)

/-! ## Operations -/

section

variable {v w u : Value} {op : Opcode}

lemma unary (hst : c.Stage A d pos [.plain op] d' b) (hat : b.At pos h [v])
    (hg : b.machine.ground ≤ h) (ho : op.isUnary = true) :
    b.Follows c h (.next b.machine) (Eval.ofExcept (Value.unary op v)) fun r =>
      Arrived A (pos + extent [.plain op]) h [r] := by
  have hstep (m : Machine) : m.execute op 0 0 = m.unary op := by
    cases op <;> first | rfl | cases ho
  have hsp : b.machine.sp = h + 1 := hat.sp
  refine hst.instr ?_
  show b.Follows c h ((b.machine.jump _).execute op 0 0) _ _
  simp only [hstep, Machine.unary, Machine.pop, Machine.jump, hsp, Nat.add_sub_cancel]
  exact Joint.Follows.ofExcept (pos + extent [.plain op]) hst.stable hst.agrees hg
    (hat.head.unary op)

lemma binary (hst : c.Stage A d pos [.plain op] d' b) (hat : b.At pos h [v, w])
    (hg : b.machine.ground ≤ h) (ho : op.isBinary = true) :
    b.Follows c h (.next b.machine) (Eval.ofExcept (Value.binary op v w)) fun r =>
      Arrived A (pos + extent [.plain op]) h [r] := by
  have hstep (m : Machine) : m.execute op 0 0 = m.binary op := by
    cases op <;> first | rfl | cases ho
  have hsp : b.machine.sp = h + 2 := hat.sp
  refine hst.instr ?_
  show b.Follows c h ((b.machine.jump _).execute op 0 0) _ _
  simp only [hstep, Machine.binary, Machine.pop, Machine.jump, hsp, Nat.add_one_sub_one]
  exact Joint.Follows.ofExcept (pos + extent [.plain op]) hst.stable hst.agrees hg
    (hat.head.binary op (hat.values 1 w rfl))

lemma getIndex (hst : c.Stage A d pos [.plain .getIndex] d' b) (hat : b.At pos h [v, w])
    (hg : b.machine.ground ≤ h) :
    b.Follows c h (.next b.machine) (Eval.getIndex v w) fun r =>
      Arrived A (pos + extent [.plain .getIndex]) h [r] := by
  have hsp : b.machine.sp = h + 2 := hat.sp
  refine hst.instr ?_
  show b.Follows c h (b.machine.jump (pos + 1)).getIndex _ _
  simp only [Machine.getIndex, Machine.pop, Machine.jump, hsp, Nat.add_one_sub_one]
  refine Joint.Follows.result (pos + 1) hst.stable hst.agrees hg
    (hst.core.like.getIndex hat.head (hat.values 1 w rfl)) ?_ ?_
  · intro r hr
    rw [Eval.getIndex, hr]
  · intro f hf
    rw [Eval.getIndex, hf]

lemma setIndex (hst : c.Stage A d pos [.plain .setIndex] d' b) (hat : b.At pos h [v, w, u])
    (hg : b.machine.ground ≤ h) :
    b.Follows c h (.next b.machine) (Eval.setIndex v w u) fun _ =>
      Arrived A (pos + extent [.plain .setIndex]) h [] := by
  have hsp : b.machine.sp = h + 3 := hat.sp
  refine hst.instr ?_
  show b.Follows c h (b.machine.jump (pos + 1)).setIndex _ _
  simp only [Machine.setIndex, Machine.pop, Machine.jump, hsp, Nat.add_one_sub_one]
  have halike := hst.core.like.setIndex hat.head (hat.values 1 w rfl) (hat.values 2 u rfl)
  rcases halike.cases with ⟨s, σ, hs, hσ, hlike, hbeside, hbeside'⟩ | ⟨f', f, hs, hσ, hf⟩
  · rw [hs]
    have hx : Eval.setIndex v w u b.store = .ok () σ := by
      rw [Eval.setIndex, hσ]
    have hu : b.Undisturbed h ⟨b.world, { b.machine.jump (pos + 1) with sp := h, store := s }, σ⟩ :=
      Joint.undisturbed_of ⟨rfl, rfl, rfl, rfl⟩ rfl rfl rfl rfl (fun _ _ => rfl) hbeside'
    have ha :=
      hst.stable.undisturbed hst.agrees hu hg (hst.core.beside hlike hbeside hbeside' rfl rfl rfl)
    exact .of_ok hx (.here ⟨b.world, _, rfl, hu.keeps c.env, ha, rfl, rfl, by simp⟩)
  · rw [hs]
    have hx : Eval.setIndex v w u b.store = .error (.fault f) b.store := by
      rw [Eval.setIndex, hσ]
    exact .of_fault hx (.here ⟨f', _, rfl, hf, hst.core.like⟩)

/-- The values on top of the stack make an array. -/
lemma array {vs : List Value} (hst : c.Stage A d pos [⟨.array, [vs.length]⟩] d' b)
    (hat : b.At pos h vs) (hg : b.machine.ground ≤ h) :
    b.Follows c h (.next b.machine) (Eval.alloc fun s => s.newArray vs.toArray) fun r =>
      Arrived A (pos + extent [⟨.array, [vs.length]⟩]) h [r] := by
  have hsp := hat.sp
  have htop : List.Forall₂ (Value.Like b.store.functions.size)
      (b.machine.top vs.length).toList vs :=
    Joint.At.top [] hat hst.safe.room
  have hnew := hst.core.like.newArray (Pointwise.of_forall₂ htop)
  refine hst.instr ?_
  show b.Follows c h ((b.machine.jump (pos + 3)).makeArray vs.length) _ _
  rw [Machine.makeArray, Machine.sp_jump, Machine.store_jump, Machine.top_jump,
    if_neg (by omega), hsp, Nat.add_sub_cancel]
  exact .push (pos + 3) hst.stable hst.agrees hg rfl hnew.1 hnew.2 ⟨rfl, rfl, rfl⟩ ⟨rfl, rfl, rfl⟩

/-- The keys and values on top of the stack make a hash. -/
lemma hash {vs : List Value} (hst : c.Stage A d pos [⟨.hash, [vs.length]⟩] d' b)
    (hat : b.At pos h vs) (hg : b.machine.ground ≤ h) :
    b.Follows c h (.next b.machine) (Eval.buildHash vs) fun r =>
      Arrived A (pos + extent [⟨.hash, [vs.length]⟩]) h [r] := by
  have hsp := hat.sp
  have htop : List.Forall₂ (Value.Like b.store.functions.size)
      (b.machine.top vs.length).toList vs :=
    Joint.At.top [] hat hst.safe.room
  refine hst.instr ?_
  show b.Follows c h ((b.machine.jump (pos + 3)).makeHash vs.length) _ _
  rw [Machine.makeHash, Machine.sp_jump, Machine.store_jump, Machine.top_jump,
    if_neg (by omega), hsp, Nat.add_sub_cancel]
  rcases (hst.core.like.buildHash htop).cases with
    ⟨⟨r', s⟩, ⟨r, σ⟩, hs, hσ, hr, hlike, hm, hm'⟩ | ⟨f', f, hs, hσ, hf⟩
  · rw [hs]
    have hx : Eval.buildHash vs b.store = .ok r σ := by
      rw [Eval.buildHash, hσ]
    refine .push (pos + 3) hst.stable hst.agrees hg hx ?_ hlike hm hm'
    rw [hm'.functions]
    exact hr
  · rw [hs]
    have hx : Eval.buildHash vs b.store = .error (.fault f) b.store := by
      rw [Eval.buildHash, hσ]
    exact .of_fault hx (.here ⟨f', _, rfl, hf, hst.core.like⟩)

/-- A literal of the pool. -/
lemma constant {e : Expr} {k : Constant} (hst : c.Stage A d pos [⟨.constant, [d.constants.size]⟩]
      { d with constants := d.constants.push k } b) (hk : e.constant? = some k) :
    b.Follows c b.machine.sp (.next b.machine) (e.eval c.call c.env) fun r =>
      Arrived A (pos + extent [⟨.constant, [d.constants.size]⟩]) b.machine.sp [r] := by
  have hget : b.machine.constants[d.constants.size]? = some k := getElem?_of_pool hst.pool (by simp)
  have hvalue : ∃ v, e.eval c.call c.env b.store = .ok v b.store ∧ (∀ id, k.toValue id = v) ∧
      v.isPlain = true := by
    cases e with
    | integer _ | float _ | string _ =>
        cases hk
        exact ⟨_, rfl, fun _ => rfl, rfl⟩
    | _ => cases hk
  obtain ⟨v, hx, hto, hp⟩ := hvalue
  refine hst.instr ?_
  show b.Follows c _ ((b.machine.jump (pos + 3)).loadConstant d.constants.size) _ _
  have hstep : (b.machine.jump (pos + 3)).loadConstant d.constants.size =
      (b.machine.jump (pos + 3)).push v := by
    simp only [Machine.loadConstant, Machine.jump, hget, hto]
  rw [hstep]
  exact .push (pos + 3) hst.stable hst.agrees hst.ground_le hx (.plain hp) hst.core.like
    (.refl _) (.refl _)

/-- A literal that is not in the pool. -/
lemma immediate {e : Expr} (hst : c.Stage A d pos [.plain op] d' b) (hop : e.immediate? = some op) :
    b.Follows c b.machine.sp (.next b.machine) (e.eval c.call c.env) fun r =>
      Arrived A (pos + extent [.plain op]) b.machine.sp [r] := by
  have hvalue : ∃ v, e.eval c.call c.env b.store = .ok v b.store ∧ v.isPlain = true ∧
      ∀ m : Machine, m.execute op 0 0 = m.push v := by
    cases e with
    | boolean x => cases x <;> cases hop <;> exact ⟨_, rfl, rfl, fun _ => rfl⟩
    | nil =>
        cases hop
        exact ⟨_, rfl, rfl, fun _ => rfl⟩
    | _ => cases hop
  obtain ⟨v, hx, hp, hstep⟩ := hvalue
  refine hst.instr ?_
  show b.Follows c _ ((b.machine.jump _).execute op 0 0) _ _
  rw [hstep]
  exact .push (pos + extent [.plain op]) hst.stable hst.agrees hst.ground_le hx (.plain hp)
    hst.core.like (.refl _) (.refl _)

/-- The top value is dropped; it stays in its slot. -/
lemma pop (hst : c.Stage A d pos [.pop] d' b) (hat : b.At pos h [v]) :
    b.Follows c h (.next b.machine) (pure v) fun w b' =>
      Arrived A (pos + extent [.pop]) h [] b' ∧
        (b'.machine.stack.getD h .nil).Like b'.store.functions.size w := by
  have hsp : b.machine.sp = h + 1 := hat.sp
  refine hst.silent (pos + extent [.pop]) h ?_ fun _ => ?_
  · show Step.next { b.machine.jump _ with sp := b.machine.sp - 1 } = _
    rw [hsp]
    rfl
  · exact .pure ⟨⟨hst.stable.moved hst.agrees _ _, rfl, rfl, nofun⟩, hat.head⟩

/-- A value is stored under a name. -/
lemma storing {A' : Joint → Prop} {x : Symbol} {n : String}
    (hst : c.Stage A d pos [x.storeInstr] d' b)
    (hat : b.At pos h [v]) (ho : x.kind.owned = true) (W : World)
    (hstore : (x.kind = .local → x.index < b.machine.frame.fn.locals.toNat) →
      let b' : Joint :=
        ⟨W, (b.moved (pos + x.storeInstr.size) h).machine.stored x (b.machine.stack.getD h .nil),
          b.store.bind c.env n v⟩
      (b.moved (pos + x.storeInstr.size) h).Keeps c.env h b' ∧ A' b') :
    b.Follows c h (.next b.machine) (Eval.bind c.env n v) fun _ =>
      Arrived A' (pos + extent [x.storeInstr]) h [] := by
  have hsp : b.machine.sp = h + 1 := hat.sp
  have hcode := hst.code
  rw [← hst.ip] at hcode
  obtain ⟨hi, hstep⟩ :=
    hst.safe.execute_store ho (hst.fits _ List.mem_cons_self) hcode (pos + x.storeInstr.size)
  obtain ⟨hk, ha⟩ := hstore hi
  refine hst.instr ?_
  rw [hstep, hsp]
  exact .of_moved (pos + x.storeInstr.size) h
    (.of_ok rfl (.here ⟨W, _, rfl, hk, ha, rfl, rfl, nofun⟩))

/-- The function returns. -/
lemma ret {Q : Value → Joint → Prop} (hst : c.Stage A d pos [.plain .returnValue] d' b)
    (hat : b.At pos h [v]) :
    b.Follows c h (.next b.machine) (throw (.returned v)) Q := by
  have hsp : b.machine.sp = h + 1 := hat.sp
  refine hst.instr ?_
  show b.Follows c h (Machine.leave { b.machine.jump (pos + 1) with sp := b.machine.sp - 1 }
    (b.machine.stack.getD (b.machine.sp - 1) .nil)) _ _
  rw [hsp]
  exact .of_returned rfl (Joint.leads_leave (pos + 1) h hst.core hst.safe hat.head fun _ => rfl)

end

end Site.Stage

/-! ## Calls -/

namespace Site

/-- The machine is about to call a closure with arguments above slot `h`, and the evaluator the
function that it is the compiled form of. -/
structure Calling (c : Site) (h i : Nat) (called : Closure) (vs : List Value) (b : Joint) :
    Prop where
  core : b.Core
  maxFrames : b.machine.maxFrames = c.maxFrames
  depth : b.machine.maxFrames - b.machine.frameCount = c.left
  function : i < b.store.functions.size
  closure : b.machine.store.closures[i + 1]? = some called
  sp : b.machine.sp = h + 1 + vs.length
  values : ∀ (j : Nat) v, vs[j]? = some v →
    (b.machine.stack.getD (h + 1 + j) .nil).Like b.store.functions.size v
  few : vs.length < 256
  safe : (b.machine.callClosure (i + 1) called vs.length).Safe c.main Builtin.table.length c.globals

/-- The machine is back from a call that left its value in slot `h`. -/
structure Back (h : Nat) (b : Joint) (v : Value) (b' : Joint) : Prop where
  core : b'.Core
  undisturbed : b.Undisturbed h b'
  frame : b'.machine.frame = b.machine.frame
  sp : b'.machine.sp = h + 1
  value : (b'.machine.stack.getD h .nil).Like b'.store.functions.size v

/-- The machine calls functions as the evaluator does. -/
def CallsAgree (c : Site) : Prop :=
  ∀ {b : Joint} {h i : Nat} {called : Closure} {vs : List Value}, c.Calling h i called vs b →
    b.Follows c h (b.machine.callClosure (i + 1) called vs.length) (c.call i vs) (Back h b)

open Joint (Arrived)

variable {c : Site} {A : Joint → Prop} {d d' : Draft} {pos h : Nat} {b : Joint} {v : Value}
  {vs : List Value}

lemma Stage.apply (hst : c.Stage A d pos [⟨.call, [vs.length]⟩] d' b) (hcalls : c.CallsAgree)
    (hat : b.At pos h (v :: vs)) (hg : b.machine.ground ≤ h) :
    b.Follows c h (.next b.machine) (Eval.apply c.call v vs) fun r =>
      Arrived A (pos + extent [⟨.call, [vs.length]⟩]) h [r] := by
  have hsp : b.machine.sp = h + (vs.length + 1) := hat.sp
  have hlike := hat.head
  have hfew : vs.length < 256 := (List.forall₂_cons.mp (hst.fits _ List.mem_cons_self)).1
  have hsafe := hst.safe_execute
  refine hst.instr ?_
  change Step.Safe _ _ _ ((b.machine.jump (pos + 2)).call vs.length) at hsafe
  show b.Follows c h ((b.machine.jump (pos + 2)).call vs.length) _ _
  have hcallee : (b.machine.jump (pos + 2)).stack.getD
      ((b.machine.jump (pos + 2)).sp - (vs.length + 1)) .nil = b.machine.stack.getD h .nil := by
    rw [Machine.sp_jump, hsp, Nat.add_sub_cancel]
    rfl
  rw [Machine.call, hcallee, Machine.sp_jump, if_neg (by omega)] at hsafe ⊢
  generalize b.machine.stack.getD h .nil = w at hlike hsafe ⊢
  cases hlike with
  | plain hp =>
      cases v with
      | builtin f =>
          have htop : List.Forall₂ (Value.Like b.store.functions.size)
              (b.machine.top vs.length).toList vs :=
            Joint.At.top [.builtin f] hat hst.safe.room
          obtain ⟨hr, hlike, hm, hσ⟩ := hst.core.like.call f htop
          have hx : Eval.apply c.call (.builtin f) vs b.store =
              .ok (f.call b.store vs).1 (f.call b.store vs).2 := rfl
          rw [← hσ.functions] at hr
          dsimp only
          rw [Machine.store_jump, Machine.top_jump, hsp, Nat.add_sub_cancel]
          exact .push (pos + 2) hst.stable hst.agrees hg hx hr hlike hm hσ
      | compiled _ _ | closure _ | function _ | error _ => cases hp
      | _ => exact .of_fault rfl (.here ⟨_, _, rfl, .same _, hst.core.like⟩)
  | @function i hi =>
      obtain ⟨called, hcalled, -⟩ := hst.core.functions (Array.getElem?_eq_getElem hi)
      dsimp only at hsafe ⊢
      rw [Machine.store_jump, hcalled] at hsafe ⊢
      have ha := hst.stable.moved hst.agrees (pos + 2) b.machine.sp
      have hvalues (j : Nat) (w : Value) (hw : vs[j]? = some w) :
          (b.machine.stack.getD (h + 1 + j) .nil).Like b.store.functions.size w := by
        have hv := hat.values (j + 1) w hw
        rwa [show h + (j + 1) = h + 1 + j by omega] at hv
      have hcalling : c.Calling h i called vs (b.moved (pos + 2) b.machine.sp) :=
        ⟨hst.stable.core ha, hst.frames, hst.depth, hi, hcalled, by show b.machine.sp = _; omega,
          hvalues, hfew, hsafe⟩
      refine .of_moved (pos + 2) b.machine.sp ((hcalls hcalling).mono ?_)
      rintro r b' ⟨hcore, hu, hframe, hsp', hr⟩
      refine ⟨hst.stable.undisturbed ha hu hg hcore, .single ?_ hsp' hr⟩
      rw [hframe]
      rfl
  | error _ => exact .of_fault rfl (.here ⟨_, _, rfl, .same _, hst.core.like⟩)

end Site

end Marmoset
