import Marmoset.Proofs.Calls
import Marmoset.Proofs.FreshPrograms

/-!
# Disciplined programs

A program that binds its names before it uses them, in every scope, and leaves alone what its
functions have captured (`Program.Disciplined`) means the same to both engines.

* **`Program.Disciplined.outcomes_match`** — the machine comes to what the evaluator comes to,
  unless its stack is too small.
-/

namespace Marmoset

namespace Program

variable {p : Program} {limits : Limits}

/-- The engines agree before the first statement of a disciplined program. -/
lemma Disciplined.awaits (h : p.Disciplined) (limits : Limits) :
    (p.joint limits).Awaits (limits.maxFrames - 1) 0 [] Compiler.fresh.symbols p := by
  refine ⟨[], ⟨p.core_joint limits, rfl, iff_of_true rfl rfl, iff_of_true rfl rfl,
    Nat.zero_lt_one, nofun,
    fun n x hx => .inr (.inl (find?_fresh hx)), nofun, nofun, fun n _ hn =>
      ⟨.builtin, ?_⟩, nofun⟩, ?_, h.scopes⟩
  · exact .builtin Nat.zero_lt_one hn fun x hx => find?_fresh hx
  · refine ⟨h.order, fun n hn => .inr hn, fun hne => absurd rfl hne, fun _ hn => hn, nofun, nofun,
      fun n hown => ?_⟩
    obtain ⟨x, hx, ho⟩ := hown
    rw [(find?_fresh hx).1] at ho
    cases ho

/-- **The engines agree on disciplined programs.**  If the program can be compiled and the stack
does not overflow, the machine comes to the value or the fault that the evaluator comes to. -/
theorem Disciplined.outcomes_match (h : p.Disciplined) (hlast : p.endsInExpr = true)
    (hl : limits.areFeasible = true) (hok : (Compiler.fresh.compile p).1 = .ok ())
    (hstack : ∀ n m, (p.machine limits).run n ≠ .fault .stackOverflow m) :
    ∃ n, ((p.machine limits).run n).Matches (p.evaluate limits) :=
  (Site.performs_awaits (p.site limits).callsAgree).program hl hok hlast hstack (h.awaits limits)

/-- A function that captures through two others and returns from inside a conditional, one that
calls itself, and a global that a function uses and that is bound again. -/
def adders : Program :=
  [.define "k" (.integer 1),
    .define "adder" (.function (some "adder") ["a"]
      [.define "b" (.binary "+" (.ident "a") (.ident "k")),
        .expr (.function none ["c"] [.expr (.function none ["d"]
          [.expr (.cond (.binary "<" (.ident "d") (.ident "c")) [.ret (.ident "b")] none),
            .expr (.binary "+" (.ident "a") (.ident "d"))])])]),
    .define "fact" (.function (some "fact") ["n"]
      [.expr (.cond (.binary "<" (.ident "n") (.integer 2)) [.expr (.integer 1)]
        (some [.expr (.binary "*" (.ident "n")
          (.call (.ident "fact") [.binary "-" (.ident "n") (.integer 1)]))]))]),
    .assign (.ident "k") (.call (.call (.ident "adder") [.integer 3]) [.integer 2]),
    .expr (.call (.ident "puts") [.call (.ident "k") [.integer 1]]),
    .expr (.array [.call (.ident "k") [.integer 5], .call (.ident "fact") [.integer 4]])]

set_option maxRecDepth 100000 in
theorem adders_match :
    adders.Disciplined ∧ adders.endsInExpr = true ∧ (Compiler.fresh.compile adders).1 = .ok () ∧
      (∀ n m, (adders.machine ⟨64, 16, 1000⟩).run n ≠ .fault .stackOverflow m) ∧
      ∃ n, ((adders.machine ⟨64, 16, 1000⟩).run n).Matches (adders.evaluate ⟨64, 16, 1000⟩) := by
  have hdisciplined : adders.Disciplined := by decide +kernel
  have hlast : adders.endsInExpr = true := by decide +kernel
  have hok : (Compiler.fresh.compile adders).1 = .ok () := by decide +kernel
  have hdone : ((adders.machine ⟨64, 16, 1000⟩).run 1000).value? = some (.array 0) := by
    decide +kernel
  have hstack (n : Nat) (m : Machine) : (adders.machine ⟨64, 16, 1000⟩).run n ≠
      .fault .stackOverflow m :=
    Machine.run_ne_fault hdone n
  exact ⟨hdisciplined, hlast, hok, hstack, hdisciplined.outcomes_match hlast (by decide) hok hstack⟩

end Program

end Marmoset
