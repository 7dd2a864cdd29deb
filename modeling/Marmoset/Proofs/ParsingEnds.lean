import Marmoset.Proofs.UnboundedParsing

/-!
# Parsing ends

The parser without a bound comes to one and the same outcome from some limit on (`Scan.Ends`),
wherever it begins and whatever the tokens are: braces and brackets may stay open, and the end of
the text may be marked in the middle of the tokens or not at all.

* **`Program.parsing_ends`** — a phrase that was read has taken at least one token and none beyond
  the last one; a program is read up to the first token that marks the end, or else up to the last
  one.
-/

namespace Marmoset

namespace Scan

variable {α : Type}

/-- From some limit on the call comes to this outcome. -/
def Ends (x : Nat → Scan α) (t : Tape) (out : Except ParseFault α × Tape) : Prop :=
  ∃ n, ∀ limit > n, x limit t = some out

lemma Ends.unique {x : Nat → Scan α} {t : Tape} {out out' : Except ParseFault α × Tape}
    (h : Ends x t out) (h' : Ends x t out') : out = out' := by
  obtain ⟨n, hn⟩ := h
  obtain ⟨n', hn'⟩ := h'
  have hlimit := hn (max n n' + 1) (by omega)
  have hlimit' := hn' (max n n' + 1) (by omega)
  exact Option.some.inj (hlimit.symm.trans hlimit')

/-- Outcomes that tell the same are the same, if they came from the same tape. -/
lemma eq_of_told {t : Tape} {out out' : Except ParseFault α × Tape} (h : t.Leads out.2)
    (h' : t.Leads out'.2) (hsame : told out = told out') : out = out' := by
  obtain ⟨res, t₁⟩ := out
  obtain ⟨res', t'⟩ := out'
  cases res with
  | ok a =>
      cases res' with
      | error e => cases hsame
      | ok a' =>
          obtain ⟨rfl, hcursor⟩ := EStateM.Result.ok.inj hsame
          exact congrArg _ (h.eq_of_cursor h' hcursor)
  | error e =>
      cases res' with
      | ok a' => cases hsame
      | error e' =>
          obtain ⟨rfl, hcursor⟩ := EStateM.Result.error.inj hsame
          exact congrArg _ (h.eq_of_cursor h' hcursor)

/-- A call that keeps to a reader for every limit above `n` has one outcome for all of them. -/
lemma exists_outcome {x : Nat → Scan α} {r : Reader α} {t : Tape} {n : Nat}
    (h : ∀ limit > n, Keeps t (x limit) r) :
    ∃ out, (∀ limit > n, x limit t = some out) ∧ told out = r t.cursor ∧ t.Leads out.2 := by
  obtain ⟨out, -, hr, hleads⟩ := h (n + 1) (Nat.lt_succ_self n)
  refine ⟨out, fun limit hlimit => ?_, hr, hleads⟩
  obtain ⟨out', hx', hr', hleads'⟩ := h limit hlimit
  rw [hx', eq_of_told hleads hleads' (hr.trans hr'.symm)]

/-- Wherever it begins, the call ends as the reader does.  If it succeeds, then it has moved on, and
not beyond the last token. -/
structure Completes (x : Nat → Scan α) (r : Reader α) : Prop where
  ends : ∀ t, ∃ out, Ends x t out ∧ told out = r t.cursor
  onward : ∀ t a t', Ends x t (.ok a, t') → t'.tokens = t.tokens ∧ t.pos < t'.pos ∧
    t'.pos ≤ t.tokens.length

lemma Completes.of_keeps {x : Nat → Scan α} {r : Reader α} (rank : Nat)
    (h : ∀ n t, 4 * t.cursor.left + rank < n → Keeps t (x n) r)
    (hr : ∀ c a c', r c = .ok a c' → c'.left < c.left) : Completes x r where
  ends t := by
    obtain ⟨out, hx, htold, -⟩ := exists_outcome fun n => h n t
    exact ⟨out, ⟨_, hx⟩, htold⟩
  onward t a t' hends := by
    obtain ⟨out, hx, htold, hleads⟩ := exists_outcome fun n => h n t
    obtain rfl : out = (.ok a, t') := Ends.unique ⟨_, hx⟩ hends
    have hlt : t.pos < t'.pos := hleads.pos_lt (hr _ _ _ htold.symm)
    exact ⟨hleads.tokens, hlt, hleads.pos_le_length hlt⟩

/-- What is reported of an outcome. -/
def report : Except ParseFault Program × Tape → Except ParseError Program
  | (.ok p, _) => .ok p
  | (.error e, t) => .error ⟨e, t.place⟩

/-- The program that the lexemes make up, or the error to report. -/
def program (limit : Nat) (ls : List Lexeme) : Option (Except ParseError Program) :=
  (statements limit [] (.ofLexemes ls)).map report

end Scan

namespace Program

open Lexeme (visible)

variable {ls : List Lexeme} {t : Tape} {p : Program}

lemma report_of_told {out : Except ParseFault Program × Tape}
    (h : Scan.told out = Reader.statements [] (.ofLexemes ls)) :
    Scan.report out = ofLexemes ls := by
  obtain ⟨res, t⟩ := out
  rw [Reader.statements] at h
  rw [ofLexemes, Parser.program]
  generalize Parser.statements [] _ (Cursor.ofLexemes ls) _ = x at h ⊢
  cases x with
  | ok q =>
      cases res with
      | error e => cases h
      | ok p =>
          obtain ⟨rfl, -⟩ := EStateM.Result.ok.inj h
          rfl
  | error f =>
      cases res with
      | ok p => cases h
      | error e =>
          obtain ⟨hfault, hcursor⟩ := EStateM.Result.error.inj h
          show Except.error _ = Except.error (ParseError.mk f.fault f.cursor.place)
          rw [← hfault, ← hcursor, t.place_cursor]

/-- Where all statements have been read, the end is next. -/
lemma peek_eq_eof (h : Scan.told (.ok p, t) = Reader.statements [] (.ofLexemes ls)) :
    t.peek = .eof := by
  rw [Reader.statements] at h
  generalize hx : Parser.statements [] _ (Cursor.ofLexemes ls) _ = x at h
  cases x with
  | error f => cases h
  | ok q =>
      obtain ⟨-, -, -, hend⟩ := Parser.reads_statements hx
      obtain ⟨-, hcursor⟩ := EStateM.Result.ok.inj h
      rwa [← hcursor, t.peek_cursor] at hend

/-- The position is at the first token that marks the end, or behind the last token if there is
none. -/
lemma pos_eq_findIdx (h : (Tape.ofLexemes ls).Leads t) (hend : t.peek = .eof) :
    t.pos = (visible ls).findIdx fun l => l.token = .eof := by
  have hle : t.pos ≤ (visible ls).length := by
    have hmax := h.pos_le_max
    rwa [show (Tape.ofLexemes ls).pos = 0 from rfl, Nat.zero_max] at hmax
  have hbefore : ∀ i (hi : i < t.pos),
      ((visible ls).get ⟨i, Nat.lt_of_lt_of_le hi hle⟩).token ≠ .eof := by
    intro i hi
    obtain ⟨l, hl, hne⟩ := h.passed i (Nat.zero_le i) hi
    obtain ⟨hlt, rfl⟩ := List.getElem?_eq_some_iff.mp hl
    exact hne
  rw [Tape.peek, h.tokens] at hend
  symm
  rcases Nat.eq_or_lt_of_le hle with heq | hlt
  · rw [heq, List.findIdx_eq_length]
    intro l hl
    obtain ⟨i, hi, rfl⟩ := List.getElem_of_mem hl
    exact decide_eq_false (hbefore i (heq ▸ hi))
  · rw [List.findIdx_eq hlt]
    rw [show (Tape.ofLexemes ls).tokens = visible ls from rfl, List.getElem?_eq_getElem hlt] at hend
    exact ⟨decide_eq_true hend, fun i hi => decide_eq_false (hbefore i hi)⟩

/-- **Parsing ends and stays within the tokens.**  With a limit of four calls for each token and
four more, the parser without a bound comes to what the parser reports.  Wherever an expression, a
statement or a block is read, reading ends as in the parser, and what was read is at least one token
of the list and none beyond its last.  A program is read up to the first token that marks the end of
the text, and if there is none, up to the last token. -/
theorem parsing_ends (ls : List Lexeme) :
    (∀ limit > 4 * (visible ls).length + 3, Scan.program limit ls = some (ofLexemes ls)) ∧
      (∀ power, Scan.Completes (Scan.expression · power) (Reader.expression power)) ∧
      Scan.Completes Scan.statement Reader.statement ∧ Scan.Completes Scan.block Reader.block ∧
      ∀ p, ofLexemes ls = .ok p →
        ∃ t, Scan.Ends (Scan.statements · []) (.ofLexemes ls) (.ok p, t) ∧ t.tokens = visible ls ∧
          t.pos = (visible ls).findIdx fun l => l.token = .eof := by
  obtain ⟨out, hx, htold, hleads⟩ :=
    Scan.exists_outcome fun n => Scan.statements_keeps n [] (.ofLexemes ls)
  have hreport := report_of_told htold
  refine ⟨fun limit hlimit => ?_,
    fun power => .of_keeps 1 (fun n => Scan.expression_keeps n power) fun _ _ _ =>
      Reader.left_lt_of_outcome,
    .of_keeps 2 Scan.statement_keeps fun _ _ _ => Reader.left_lt_of_outcome,
    .of_keeps 0 Scan.block_keeps fun _ _ _ => Reader.left_lt_of_outcome, fun p hp => ?_⟩
  · rw [Scan.program, hx limit hlimit, Option.map_some, hreport]
  · obtain ⟨res, t⟩ := out
    rw [hp] at hreport
    cases res with
    | error e => cases hreport
    | ok q =>
        cases hreport
        exact ⟨t, ⟨_, hx⟩, hleads.tokens, pos_eq_findIdx hleads (peek_eq_eof htold)⟩

/-- `[a]; -1` with a comment inside, and a brace behind the end. -/
def cutShort : List Lexeme :=
  [⟨.sign .openBracket, ⟨1, 1⟩⟩, ⟨.ident "a", ⟨1, 2⟩⟩, ⟨.comment "one", ⟨1, 4⟩⟩,
    ⟨.sign .closeBracket, ⟨2, 1⟩⟩,
    ⟨.sign .semicolon, ⟨2, 2⟩⟩, ⟨.sign .minus, ⟨2, 4⟩⟩, ⟨.integer 1, ⟨2, 5⟩⟩, ⟨.eof, ⟨2, 6⟩⟩,
    ⟨.sign .openBrace, ⟨2, 7⟩⟩]

theorem cutShort_parsing_ends :
    ∃ p t, ofLexemes cutShort = .ok p ∧ Scan.program 40 cutShort = some (.ok p) ∧
      Scan.Ends (Scan.statements · []) (.ofLexemes cutShort) (.ok p, t) ∧ t.tokens.length = 8 ∧
      t.pos = 6 := by
  obtain ⟨hends, -, -, -, hstands⟩ := parsing_ends cutShort
  cases hp : ofLexemes cutShort with
  | error e =>
      have hok : (ofLexemes cutShort).toOption.isSome = true := by decide +kernel
      rw [hp] at hok
      cases hok
  | ok p =>
      obtain ⟨t, ht, htokens, hpos⟩ := hstands p hp
      have hlimit := hends 40 (by decide)
      rw [hp] at hlimit
      exact ⟨p, t, rfl, hlimit, ht, congrArg List.length htokens, hpos⟩

end Program

end Marmoset
