import Marmoset.Proofs.NamesInUse
import Marmoset.Proofs.ScopeRuns

/-!
# Scopes in order

Inside a statement of a disciplined scope the names that are known do not change: `inStatement`
keeps track of them and of the names that the statement may mention.  From one statement to the next
the scope learns the name that the statement binds (`Joint.Awaits`).

* **`Site.tracks_inStatement`** — the parts of a statement run as they are evaluated.
* **`Site.performs_awaits`** — so do the statements of the scope.
-/

namespace Marmoset

open Joint (Arrived)

/-! ## Inside a statement -/

/-- The names that are known in a scope, and those that a statement mentions. -/
abbrev Outlook := List String × Mentions

/-- Inside a statement of a disciplined scope nothing changes: names with a slot may be bound again,
and no other ones are bound. -/
def inStatement : Tracking Outlook where
  reads k n := n ∈ k.2.uses
  makes k f := f.mentions.Within k.2 ∧ Part.inOrder (.expr f) = true
  opens s k k' := k' = k ∧ s.mentions.Within k.2
  closes s k k' := k' = k ∧ s.mentions.Within k.2
  skips ss k k' := k' = k ∧ (Stmt.mentionsAll ss).Within k.2

/-- A part of a statement is passed. -/
lemma Emits.passes_inStatement {part : Part} {d d' : Draft} {pos : Nat} {is : List Instr}
    {k : Outlook} (h : Emits part d pos is d') (hw : part.mentions.Within k.2)
    (ho : part.inOrder = true) (c : Site) (σ : Store) :
    inStatement.Passes c part k σ k := by
  have hsteady : inStatement.Steady Expr.isDisciplined Stmt.isPlain k.2 k :=
    ⟨fun hs => hs, fun hn => hn, fun hf hw => ⟨hw, hf⟩, fun _ hw => ⟨rfl, hw⟩,
      fun _ hw => ⟨rfl, hw⟩, fun hw => ⟨rfl, hw⟩⟩
  exact h.passes hsteady hw ho c σ

/-- A statement inside another one binds a name that has a slot already. -/
lemma Allowed.slotFor {sc : ScopeNames} {t t' : SymbolTable} {known : List String} {s : Stmt}
    {x : Symbol} (h : Allowed sc t known s.mentions) (hx : t.slotFor s = some (x, t')) :
    t' = t := by
  cases s with
  | define n e => exact absurd List.mem_cons_self (h.lets n)
  | assign target e =>
      cases target with
      | ident n =>
          have heq : t.assignable n = (x, t') := Option.some.inj hx
          have hown := (h.binds n List.mem_cons_self).1.assignable
          rwa [heq] at hown
      | _ => cases hx
  | ret _ | expr _ | block _ => cases hx

namespace Joint

variable {left env : Nat} {free : List Symbol} {t : SymbolTable} {known : List String}

/-- What the engines agree in leaves room for all that leaves names alone. -/
lemma stable_agrees : Stable (Agrees left env free t known) :=
  ⟨fun ha => ha.core, fun ha hu hh hcore => ha.undisturbed hu hh hcore⟩

/-- The engines agree in the names of a statement. -/
def Heeds (left env : Nat) (free : List Symbol) (t : SymbolTable) (k : Outlook) (b : Joint) :
    Prop :=
  b.Agrees left env free t k.1 ∧ Allowed (b.world.scopes env) t k.1 k.2

lemma stable_heeds {k : Outlook} : Stable (Heeds left env free t k) where
  core h := h.1.core
  undisturbed := by
    rintro b b' h ⟨ha, hallow⟩ hu hh hcore
    refine ⟨ha.undisturbed hu hh hcore, ?_⟩
    rw [(hu.later env).scopes env ha.present]
    exact hallow

end Joint

namespace Site

variable {c : Site} {A : Joint → Prop} {d d' : Draft} {pos h : Nat} {known : List String}
  {b : Joint} {n : String}
  {x : Symbol} {v : Value}

/-- A name of a scope in order. -/
lemma Stage.ident {t : SymbolTable} (hst : c.Stage A d pos [x.loadInstr] { d with symbols := t } b)
    (ha : b.Agrees c.left c.env c.free d.symbols known) (hr : d.symbols.resolve n = some (x, t))
    (huse : n ∈ known ∨ (n ∉ (b.world.scopes c.env).bound ∧ n ∈ (b.world.scopes c.env).free)) :
    (Part.expr (.ident n)).Follows c (Joint.Agrees c.left c.env c.free t known)
      (pos + extent [x.loadInstr]) b := by
  obtain ⟨v, hx, hv⟩ := ha.ident hst.good.sound hst.good.proper hr hst.free huse
  obtain rfl := hst.ip
  have hcaptures := SymbolTable.resolve_captures hr
  refine (Joint.Follows.load Joint.stable_agrees ha hst.safe (hst.fits _ List.mem_cons_self)
    hst.code hx hv).mono ?_
  rintro r b' ⟨ha, hat⟩
  exact ⟨ha.captures hcaptures.1 hcaptures.2 (hst.good.sound.resolve hr), hat⟩

/-- A value is stored under a name of the scope, which is known from then on. -/
lemma Stage.store (hst : c.Stage A d pos [x.storeInstr] d' b)
    (ha : b.Agrees c.left c.env c.free d.symbols known) (hat : b.At pos h [v])
    (hx : d.symbols.current.find? n = some x) (ho : x.kind.owned = true)
    (hn : n ∈ (b.world.scopes c.env).frozen → n ∉ known) :
    b.Follows c h (.next b.machine) (Eval.bind c.env n v) fun _ =>
      Arrived (Joint.Agrees c.left c.env c.free d.symbols (n :: known))
        (pos + extent [x.storeInstr]) h [] := by
  have hroom := Nat.le_trans hst.ground_le hst.safe.room
  have hmoved := Joint.stable_agrees.moved ha (pos + x.storeInstr.size) h
  refine hst.storing hat ho (b.world.learn n x) fun hi => ?_
  exact (hmoved.store hst.good.sound hst.good.proper hx ho hi hroom hn hat.head h).symm

/-- **The parts of a statement run as they are evaluated.** -/
theorem tracks_inStatement (c : Site) : c.Tracks inStatement (Joint.Heeds c.left c.env c.free) where
  stable _ _ := Joint.stable_heeds
  ident := by
    intro d x pos n t k b hr hn hst
    obtain ⟨ha, hallow⟩ := hst.agrees
    have hcaptures := SymbolTable.resolve_captures hr
    refine (hst.ident ha hr (hallow.uses n hn)).keeping fun b' hk ha' => ⟨ha', ?_⟩
    rw [hk.later.scopes c.env ha.present]
    exact hallow.next hcaptures.1 hcaptures.2
  function := by
    intro d d' pos is name params body k b hem hmakes hst
    obtain ⟨ha, hallow⟩ := hst.agrees
    obtain ⟨hdisc, hscopes⟩ := Bool.and_eq_true_iff.mp hmakes.2
    have hcode := hst.code
    obtain rfl := hst.ip
    cases hem with
    | function hbody hleave fits code locals arity compiled =>
        have hcaptures := SymbolTable.captures_of_leave hbody.grows.outer hleave
        have hrun := Joint.Follows.function c.call ha hst.safe hst.good hbody hleave ⟨code, fits⟩
          arity compiled
          hst.pool hst.free (hallow.within hmakes.1) (of_decide_eq_true hdisc) hscopes
            hst.fits hcode
        refine Part.Follows.keeping hrun fun b' hk ha' => ⟨ha', ?_⟩
        rw [hk.later.scopes c.env ha.present]
        exact hallow.next hcaptures.1 hcaptures.2
    | constant hk => cases hk
    | immediate hk => cases hk
  opens := by
    rintro d t' s x k k' b - hx ⟨rfl, hw⟩ ⟨ha, hallow⟩
    rw [(hallow.within hw).slotFor hx]
    exact ⟨ha, hallow⟩
  closes := by
    rintro s d d' x b₀ b n e t is pos k k₁ k₂ k' h v - hx hs ⟨rfl, hw₁⟩ hem -
      ⟨rfl, hw⟩ ⟨-, hallow₀⟩ - hst hat
    obtain ⟨ha, hallow⟩ := hst.agrees
    obtain ⟨hfind, ho⟩ := SymbolTable.find?_of_slotFor hx hs
    have hallow₁ : Allowed _ t _ (Part.expr e).mentions :=
      hallow₀.within ((Stmt.within_of_binding? hs).trans hw₁)
    have hcaptures := hallow₁.emits hem
    have hfrozen :=
      (hallow.binds n (hw.binds (Stmt.mem_binds_of_target? (Stmt.target?_of_binding? hs)))).2
    refine (hst.store ha hat (hcaptures.keeps hfind) ho fun hz => absurd hz hfrozen).keeping
      (Nat.le_refl _) ?_
    rintro r b' hk ⟨ha', hat'⟩
    have hscopes := hk.later.scopes c.env ha.present
    refine ⟨⟨ha'.forget ?_, ?_⟩, hat'⟩
    · rwa [hscopes]
    · rw [hscopes]
      exact hallow
  skips := by
    rintro d d' ss pos is k k' b hgood hem ⟨rfl, hw⟩ ⟨ha, hallow⟩
    have hcaptures := (hallow.within hw).emits hem
    exact ⟨ha.captures hcaptures hem.grows.outer (hem.good hgood).1.sound,
      hallow.next hcaptures hem.grows.outer⟩

end Site

/-! ## From one statement to the next -/

namespace Joint

/-- The engines agree in the names of a scope that are known so far, and the statements that are
still to be done are in order. -/
def Awaits (left env : Nat) (free : List Symbol) (t : SymbolTable) (ss : List Stmt) (b : Joint) :
    Prop :=
  ∃ known, b.Agrees left env free t known ∧ Due (b.world.scopes env) t known ss ∧
    Stmt.scopesInOrder ss = true

variable {left env : Nat} {free : List Symbol} {t : SymbolTable} {known : List String}
  {b : Joint} {s : Stmt}
  {ss : List Stmt}

lemma stable_awaits : Stable (Awaits left env free t ss) where
  core := by
    rintro b ⟨known, ha, -⟩
    exact ha.core
  undisturbed := by
    rintro b b' h ⟨known, ha, hdue, hscopes⟩ hu hh hcore
    refine ⟨known, ha.undisturbed hu hh hcore, ?_, hscopes⟩
    rw [(hu.later env).scopes env ha.present]
    exact hdue

/-- A statement of a scope in order gets the slot that it stores to, and its value may be
evaluated. -/
lemma Agrees.slotFor {t' : SymbolTable} {x : Symbol} {n : String} {e : Expr}
    (ha : b.Agrees left env free t known) (hdue : Due (b.world.scopes env) t known (s :: ss))
    (hx : t.slotFor s = some (x, t')) (hs : s.binding? = some (n, e)) :
    b.Heeds left env free t' (known, e.mentions) := by
  have hbound : n ∈ (b.world.scopes env).bound :=
    hdue.binds (Due.mem_binds (Stmt.mem_binds_of_target? (Stmt.target?_of_binding? hs)))
  unfold Stmt.binding? at hs
  split at hs <;> cases hs
  · cases hx
    have hk : n ∉ known := hdue.order.1.first n List.mem_cons_self
    exact ⟨ha.define hk (fun hown => hk (hdue.fresh n hown)) hbound, hdue.define⟩
  · obtain rfl : (t.assignable n).2 = t' := congrArg Prod.snd (Option.some.inj hx)
    refine ⟨?_, hdue.assign⟩
    by_cases hown : t.Owns n
    · rwa [hown.assignable]
    · have hk : n ∉ known := fun hk => hown (hdue.owned n hk (Due.mem_binds List.mem_cons_self))
      rcases t.assignable_cases n with ⟨y, hy, ho, -⟩ | ⟨-, heq⟩
      · exact absurd ⟨y, hy, ho⟩ hown
      · rw [heq]
        exact ha.define hk hown hbound

end Joint

namespace Site

variable {c : Site} {d d' : Draft} {pos : Nat} {is is' : List Instr} {b : Joint} {s : Stmt}
  {ss : List Stmt}

/-- A statement that binds no name, or the expression in it. -/
lemma Stage.part {part : Part}
    (hst : c.Stage (Joint.Awaits c.left c.env c.free d.symbols (s :: ss)) d pos is d' b)
    (hem : Emits part d pos is d') (hem' : Emits (.stmt s) d pos is' d') (ht : s.target? = none)
    (hm : part.mentions = s.mentions)
    (ho : s.every Expr.isDisciplined Stmt.isPlain = true → part.inOrder = true)
    (hr : c.Runs inStatement (Joint.Heeds c.left c.env c.free) part d pos is d') :
    part.Follows c (Joint.Awaits c.left c.env c.free d'.symbols ss) (pos + extent is) b := by
  obtain ⟨known, ha, hdue, hscopes⟩ := hst.agrees
  obtain ⟨hs, hss⟩ := Bool.and_eq_true_iff.mp hscopes
  have hallow : Allowed (b.world.scopes c.env) d.symbols known part.mentions := hm ▸ hdue.allowed ht
  have hpass : inStatement.Passes c part (known, part.mentions) b.store (known, part.mentions) :=
    hem.passes_inStatement (.refl _) (ho hs) c b.store
  have hst' : c.Stage (Joint.Heeds c.left c.env c.free d.symbols (known, part.mentions)) d
      pos is d' b :=
    { hst with stable := Joint.stable_heeds, agrees := ⟨ha, hallow⟩ }
  refine (hr hpass hst').keeping fun b' hk ha' => ⟨known, ha'.1, ?_, hss⟩
  have hnext := hdue.emits hem' (Stmt.of_every hs)
  rw [hk.later.scopes c.env ha.present]
  rwa [ht] at hnext

/-- A statement that binds a name. -/
lemma Stage.binds {n : String} {e : Expr} {x : Symbol} {t : SymbolTable}
    (hst : c.Stage (Joint.Awaits c.left c.env c.free d.symbols (s :: ss)) d pos
      (is ++ [x.storeInstr]) d' b)
    (hs : s.binding? = some (n, e)) (hx : d.symbols.slotFor s = some (x, t))
    (he : Emits (.expr e) { d with symbols := t } pos is d')
    (hem : Emits (.stmt s) d pos (is ++ [x.storeInstr]) d')
    (ho : s.every Expr.isDisciplined Stmt.isPlain = true → Part.inOrder (.expr e) = true)
    (hr : c.Runs inStatement (Joint.Heeds c.left c.env c.free) (.expr e) { d with symbols := t }
      pos is d') :
    (Part.stmt s).Follows c (Joint.Awaits c.left c.env c.free d'.symbols ss)
      (pos + extent (is ++ [x.storeInstr])) b := by
  obtain ⟨known, ha, hdue, hscopes⟩ := hst.agrees
  obtain ⟨hevery, hss⟩ := Bool.and_eq_true_iff.mp hscopes
  have htarget := Stmt.target?_of_binding? hs
  have hheeds := ha.slotFor hdue hx hs
  have hst' := hst.opened hx Joint.stable_heeds hheeds
  have hpass : inStatement.Passes c (.expr e) (known, e.mentions) b.store (known, e.mentions) :=
    he.passes_inStatement (.refl _) (ho hevery) c b.store
  refine hst'.binding hs he Joint.stable_heeds (hr hpass (hst'.first (.refl _)))
    fun v b₁ hk₁ hst₁ hat₁ => ?_
  have hscopes₁ := hk₁.later.scopes c.env ha.present
  obtain ⟨ha₁, -⟩ := hst₁.agrees
  obtain ⟨hfind, hown⟩ := SymbolTable.find?_of_slotFor hx hs
  have hallow : Allowed _ t known (Part.expr e).mentions := hheeds.2
  have hcaptures := hallow.emits he
  have hfrozen : n ∈ (b₁.world.scopes c.env).frozen → n ∉ known := by
    rw [hscopes₁]
    exact fun hz hk => hdue.not_frozen (Stmt.mem_binds_of_target? htarget) hk hz
  refine (hst₁.store ha₁ hat₁ (hcaptures.keeps hfind) hown hfrozen).keeping (Nat.le_refl _) ?_
  rintro r b₂ hk₂ ⟨ha₂, hat₂⟩
  have hnext := hdue.emits hem (Stmt.of_every hevery)
  rw [htarget] at hnext
  refine ⟨⟨n :: known, ha₂, ?_, hss⟩, hat₂⟩
  rw [hk₂.later.scopes c.env ha₁.present, hscopes₁]
  exact hnext

/-- **The statements of a scope in order run as they are evaluated**, if calls do. -/
theorem performs_awaits (hcalls : c.CallsAgree) :
    c.Performs (Joint.Awaits c.left c.env c.free) where
  stable _ _ := Joint.stable_awaits
  plain := by
    rintro t ss b ⟨-, -, -, hscopes⟩
    exact fun s hs => Stmt.of_every (Stmt.everyOf_iff.mp hscopes s hs)
  value := by
    intro d d' s e ss pos is b hs he hst
    have hr := he.simulates c.tracks_inStatement hcalls
    rcases hs with rfl | rfl
    · exact hst.part he (.expr he) rfl rfl id hr
    · exact hst.part he (.ret he) rfl rfl id hr
  stmt := by
    intro d d' s ss pos is b hem hst
    have hr := hem.simulates c.tracks_inStatement hcalls
    cases hem with
    | define he =>
        exact hst.binds rfl rfl he (.define he) id (he.simulates c.tracks_inStatement hcalls)
    | assign he =>
        exact hst.binds rfl rfl he (.assign he) id (he.simulates c.tracks_inStatement hcalls)
    | setIndex he he' he'' =>
        exact hst.part (.setIndex he he' he'') (.setIndex he he' he'') rfl rfl id hr.1
    | ret he => exact hst.part (.ret he) (.ret he) rfl rfl id hr.1
    | expr he => exact hst.part (.expr he) (.expr he) rfl rfl id hr.1
    | block _ =>
        obtain ⟨-, -, -, hscopes⟩ := hst.agrees
        cases hscopes

end Site

end Marmoset
