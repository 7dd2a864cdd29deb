import Marmoset.Token.Lexer
import Mathlib.Data.List.Induction
import Mathlib.Data.List.TakeWhile
import Mathlib.Tactic.Common

/-!
# A text in pieces

The lexer walks over a text with a count of the characters that the last token still owns.  What
comes of it is a text cut into pieces: blanks and a word, again and again, and blanks at the end.

* `Token.scan_alone` — the token that is found at the front of a text is found in its own characters
  alone.
* `Token.Cuts` — the text is cut into these lexemes; `lex_eq_ok_iff` says that this is what `lex`
  does.
* **`lex_partitions`** — the words and the blanks between them make up the text, each word is one
  token on its own, and each token has the place that is read off from what stands in front of it.
-/

namespace Marmoset

/-! ## Places -/

namespace Pos

/-- The place behind `before`, read off from the text: the lines that end there, and the characters
since the last of them. -/
def behind (before : List Char) : Pos :=
  ⟨1 + before.count '\n', 1 + (before.reverse.takeWhile (· ≠ '\n')).length⟩

@[simp] lemma after_nil (p : Pos) : p.after [] = p := rfl

lemma after_cons (p : Pos) (c : Char) (cs : List Char) :
    p.after (c :: cs) = (p.advance c).after cs := rfl

/-- Characters are passed in two goes. -/
lemma after_append (p : Pos) (xs ys : List Char) : p.after (xs ++ ys) = (p.after xs).after ys :=
  List.foldl_append

/-- Going on from the start comes to the place that is read off. -/
lemma after_start (before : List Char) : start.after before = behind before := by
  induction before using List.reverseRecOn with
  | nil => rfl
  | append_singleton cs c ih =>
      rw [after_append, ih, after_cons, after_nil, behind, behind, advance, List.count_append,
        List.reverse_append]
      by_cases hc : c = '\n'
      · simp [hc, Nat.add_assoc]
      · simp [hc, Nat.add_comm]

end Pos

namespace Token

/-! ## Words that stand alone -/

/-- What `scanner` finds in `cs` it finds in the characters alone that the token owns.  Of these,
`base` are not in `cs`.  No scanner finds the end of the text. -/
structure Alone (scanner : List Char → Scan) (base : Nat) (cs : List Char) (t : Token) (n : Nat) :
    Prop where
  owned : ∃ w rest, cs = w ++ rest ∧ n = base + w.length ∧ scanner w = .ok (t, n)
  ne_eof : t ≠ .eof

/-- A run of characters ends where one follows that does not belong to it. -/
lemma run_append {p : Char → Bool} {w : List Char} (rest : List Char) (hw : ∀ c ∈ w, p c = true)
    (hrest : ∀ c ∈ rest.head?, p c = false) :
    (w ++ rest).takeWhile p = w ∧ (w ++ rest).dropWhile p = rest := by
  rw [List.takeWhile_append_of_pos hw, List.dropWhile_append_of_pos hw]
  cases rest with
  | nil => simp
  | cons c rest => simp [hrest c rfl]

/-- A character that starts no escape ends the literal or belongs to it. -/
lemma scanString_char {c : Char} (hc : c ≠ '\\') (acc : List Char) (n : Nat) (cs : List Char) :
    scanString acc n (c :: cs) =
      if c = '"' then .ok (.string (String.ofList acc.reverse), n + 1)
        else scanString (c :: acc) (n + 1) cs := by
  rw [scanString]
  · exact fun h _ => hc h
  · exact fun _ _ h _ => hc h

/-- A string ends at its closing quote, and nothing behind it matters. -/
lemma scanString_alone {acc : List Char} {n : Nat} {cs : List Char} {t : Token} {m : Nat}
    (h : scanString acc n cs = .ok (t, m)) : Alone (scanString acc n) n cs t m := by
  fun_induction scanString acc n cs with
  | case1 | case2 | case4 => cases h
  | case3 acc n c cs d hd ih =>
      obtain ⟨⟨w, rest, rfl, hm, hw⟩, ht⟩ := ih h
      refine ⟨⟨'\\' :: c :: w, rest, rfl, by simp only [List.length_cons]; omega, ?_⟩, ht⟩
      rw [scanString, hd]
      exact hw
  | case5 acc n cs hend hesc =>
      cases h
      exact ⟨⟨['"'], cs, rfl, rfl, rfl⟩, by simp⟩
  | case6 acc n c cs hend hesc hquote ih =>
      have hc : c ≠ '\\' := by
        intro hc
        cases cs with
        | nil => exact hend hc rfl
        | cons d cs => exact hesc d cs hc rfl
      obtain ⟨⟨w, rest, rfl, hm, hw⟩, ht⟩ := ih h
      refine ⟨⟨c :: w, rest, rfl, by simp only [List.length_cons]; omega, ?_⟩, ht⟩
      rw [scanString_char hc, if_neg hquote]
      exact hw

/-- Hexadecimal digits end where another character follows. -/
lemma scanHex_alone {cs : List Char} {t : Token} {m : Nat} (h : scanHex cs = .ok (t, m)) :
    Alone scanHex 1 cs t m := by
  simp only [scanHex] at h
  split_ifs at h with hnone hfits
  cases h
  refine ⟨⟨cs.takeWhile isHexDigit, cs.dropWhile isHexDigit, List.takeWhile_append_dropWhile.symm,
    rfl, ?_⟩, by simp⟩
  simp only [scanHex, List.takeWhile_idem]
  rw [if_neg hnone, if_pos hfits]

/-- Digits that neither another digit nor a point follows are an integer. -/
lemma scanDecimal_integer {c : Char} {ds : List Char} (rest : List Char)
    (hds : ∀ d ∈ ds, d.isDigit = true) (hrest : ∀ d ∈ rest.head?, d.isDigit = false ∧ d ≠ '.')
    (hfits : numberOf 10 (c :: ds) < integerBound) :
    scanDecimal c (ds ++ rest) =
      .ok (.integer (Int64.ofNat (numberOf 10 (c :: ds))), ds.length) := by
  obtain ⟨htake, hdrop⟩ := run_append rest hds fun d hd => (hrest d hd).1
  simp only [scanDecimal, htake, hdrop]
  split
  · exact absurd rfl (hrest '.' rfl).2
  · simp only [List.isEmpty_nil, if_true, if_pos hfits]

/-- Digits, a point and digits again are a number with a fraction. -/
lemma scanDecimal_float {c : Char} {ds fs : List Char} (hds : ∀ d ∈ ds, d.isDigit = true)
    (hfs : ∀ d ∈ fs, d.isDigit = true) (hne : fs.isEmpty = false) :
    scanDecimal c (ds ++ '.' :: fs) =
      .ok (.float (Double.ofDecimal (numberOf 10 (c :: ds ++ fs)) fs.length),
        ds.length + 1 + fs.length) := by
  obtain ⟨htake, hdrop⟩ := run_append ('.' :: fs) hds (by simp)
  have hrun : fs.takeWhile Char.isDigit = fs := List.takeWhile_eq_self_iff.mpr hfs
  simp only [scanDecimal, htake, hdrop, hrun, hne, Bool.false_eq_true, if_false]

lemma scanDecimal_alone {c : Char} {cs : List Char} {t : Token} {m : Nat}
    (h : scanDecimal c cs = .ok (t, m)) :
    Alone (scanDecimal c) 0 cs t m := by
  have hdigits {ds : List Char} : ∀ d ∈ ds.takeWhile Char.isDigit, d.isDigit = true :=
    fun _ => List.mem_takeWhile_imp
  have hparts : cs = cs.takeWhile Char.isDigit ++ cs.dropWhile Char.isDigit :=
    List.takeWhile_append_dropWhile.symm
  have hinteger (hfits : numberOf 10 (c :: cs.takeWhile Char.isDigit) < integerBound) :
      Alone (scanDecimal c) 0 cs
        (.integer (Int64.ofNat (numberOf 10 (c :: cs.takeWhile Char.isDigit))))
        (cs.takeWhile Char.isDigit).length := by
    refine ⟨⟨_, _, hparts, (Nat.zero_add _).symm, ?_⟩, by simp⟩
    simpa using scanDecimal_integer [] hdigits (by simp) hfits
  simp only [scanDecimal] at h
  split at h
  · next tail htail =>
      split_ifs at h with hempty hfits
      · cases h
        exact hinteger hfits
      · cases h
        have htail' : tail = tail.takeWhile Char.isDigit ++ tail.dropWhile Char.isDigit :=
          List.takeWhile_append_dropWhile.symm
        refine ⟨⟨cs.takeWhile Char.isDigit ++ '.' :: tail.takeWhile Char.isDigit,
          tail.dropWhile Char.isDigit, ?_, ?_,
          scanDecimal_float hdigits hdigits (by simpa using hempty)⟩, by simp⟩
        · rw [List.append_assoc, List.cons_append, ← htail', ← htail, ← hparts]
        · simp only [List.length_append, List.length_cons]
          omega
  · simp only [List.isEmpty_nil, if_true] at h
    split_ifs at h with hfits
    cases h
    exact hinteger hfits

/-- Digits are decimal unless the mark of a hexadecimal literal follows a zero. -/
lemma scanNumber_decimal {c : Char} {cs : List Char}
    (h : c = '0' → ∀ d ∈ cs.head?, d ≠ 'x' ∧ d ≠ 'X') :
    scanNumber c cs = scanDecimal c cs := by
  unfold scanNumber
  split
  · exact absurd rfl (h rfl 'x' rfl).1
  · exact absurd rfl (h rfl 'X' rfl).2
  · rfl

/-- A number ends where neither a digit nor a point with a digit follows. -/
lemma scanNumber_alone {c : Char} {cs : List Char} {t : Token} {m : Nat}
    (h : scanNumber c cs = .ok (t, m)) :
    Alone (scanNumber c) 0 cs t m := by
  unfold scanNumber at h
  split at h
  · obtain ⟨⟨w, rest, rfl, hm, hw⟩, ht⟩ := scanHex_alone h
    exact ⟨⟨'x' :: w, rest, rfl, by simp only [List.length_cons]; omega, hw⟩, ht⟩
  · obtain ⟨⟨w, rest, rfl, hm, hw⟩, ht⟩ := scanHex_alone h
    exact ⟨⟨'X' :: w, rest, rfl, by simp only [List.length_cons]; omega, hw⟩, ht⟩
  · next hx hX =>
      obtain ⟨⟨w, rest, rfl, hm, hw⟩, ht⟩ := scanDecimal_alone h
      refine ⟨⟨w, rest, rfl, hm, ?_⟩, ht⟩
      rw [scanNumber_decimal, hw]
      intro hc d hd
      cases w with
      | nil => simp at hd
      | cons e w =>
          cases hd
          exact ⟨fun he => hx (w ++ rest) hc (by simp [he]),
            fun he => hX (w ++ rest) hc (by simp [he])⟩

lemma scanWord_alone (c : Char) (cs : List Char) :
    Alone (fun w => .ok (scanWord c w)) 0 cs (scanWord c cs).1 (scanWord c cs).2 := by
  refine ⟨⟨cs.takeWhile isNamePart, cs.dropWhile isNamePart, List.takeWhile_append_dropWhile.symm,
    (Nat.zero_add _).symm, ?_⟩, ?_⟩
  · simp only [scanWord, List.takeWhile_idem]
  · simp only [scanWord]
    split <;> simp

/-- A sign of one character is one also where nothing follows; one of two characters takes the next
one. -/
lemma signAt_cases {c : Char} {next : Option Char} {s : Sign} {n : Nat}
    (h : signAt c next = some (s, n)) :
    n = 0 ∧ signAt c none = some (s, 0) ∨ n = 1 ∧ ∃ d, next = some d := by
  unfold signAt at h
  split at h
  all_goals (try split_ifs at h with hnext) <;> cases h
  all_goals first | exact .inl ⟨rfl, rfl⟩ | exact .inr ⟨rfl, _, hnext⟩

/-- **A token is found in its own characters alone.** -/
theorem scan_alone {c : Char} {cs : List Char} {t : Token} {n : Nat} (h : scan c cs = .ok (t, n)) :
    Alone (scan c) 0 cs t n := by
  -- what starts no comment starts none either when less follows
  have hfront {w rest : List Char} (hcs : cs = w ++ rest) (hno : ¬(c = '/' ∧ cs.head? = some '/')) :
      ¬(c = '/' ∧ w.head? = some '/') := by
    rintro ⟨hc, hw⟩
    exact hno ⟨hc, by rw [hcs, List.head?_append, hw]; rfl⟩
  unfold scan at h
  split_ifs at h with hcomment hquote hdigit hname
  · obtain ⟨rfl, hslash⟩ := hcomment
    obtain ⟨cs, rfl⟩ := List.head?_eq_some_iff.mp hslash
    cases h
    refine ⟨⟨'/' :: cs.takeWhile (· ≠ '\n'), cs.dropWhile (· ≠ '\n'), ?_, ?_, ?_⟩, by simp⟩
    · rw [List.cons_append, List.takeWhile_append_dropWhile]
    · simp
    · simp [scan, scanComment, List.takeWhile_idem]
  · obtain ⟨⟨w, rest, hcs, hn, hw⟩, ht⟩ := scanString_alone h
    refine ⟨⟨w, rest, hcs, hn, ?_⟩, ht⟩
    rw [scan, if_neg (hfront hcs hcomment), if_pos hquote, hw]
  · obtain ⟨⟨w, rest, hcs, hn, hw⟩, ht⟩ := scanNumber_alone h
    refine ⟨⟨w, rest, hcs, hn, ?_⟩, ht⟩
    rw [scan, if_neg (hfront hcs hcomment), if_neg hquote, if_pos hdigit, hw]
  · cases h
    obtain ⟨⟨w, rest, hcs, hn, hw⟩, ht⟩ := scanWord_alone c cs
    refine ⟨⟨w, rest, hcs, hn, ?_⟩, ht⟩
    rw [scan, if_neg (hfront hcs hcomment), if_neg hquote, if_neg hdigit, if_pos hname]
    exact hw
  · split at h
    · next s k hsign =>
        cases h
        rcases signAt_cases hsign with ⟨rfl, hnone⟩ | ⟨rfl, d, hd⟩
        · refine ⟨⟨[], cs, rfl, rfl, ?_⟩, by simp⟩
          rw [scan, if_neg (hfront rfl hcomment), if_neg hquote, if_neg hdigit, if_neg hname,
            List.head?_nil, hnone]
        · obtain ⟨cs, rfl⟩ := List.head?_eq_some_iff.mp hd
          refine ⟨⟨[d], cs, rfl, rfl, ?_⟩, by simp⟩
          rw [scan, if_neg (hfront rfl hcomment), if_neg hquote, if_neg hdigit, if_neg hname,
            List.head?_cons, ← hd, hsign]
    · cases h

/-! ## Cuts -/

/-- From `p` on, `cs` is cut into `ls`: words with blanks in front of them, and blanks before the
end. -/
inductive Cuts : Pos → List Char → List Lexeme → Prop where
  | stop {p : Pos} {gap : List Char} (hgap : gap.all Text.isBlank = true) :
      Cuts p gap [⟨.eof, p.after gap⟩]
  | word {p : Pos} {gap : List Char} {c : Char} {w rest : List Char} {t : Token} {ls : List Lexeme}
      (hgap : gap.all Text.isBlank = true) (hc : Text.isBlank c = false)
      (ht : scan c (w ++ rest) = .ok (t, w.length))
      (hrest : Cuts (p.after (gap ++ c :: w)) rest ls) :
      Cuts p (gap ++ c :: w ++ rest) (⟨t, p.after gap⟩ :: ls)

/-- Characters that the last token owns are passed over. -/
lemma lexFrom_owed (acc : List Lexeme) (p : Pos) (w rest : List Char) :
    lexFrom acc p w.length (w ++ rest) = lexFrom acc (p.after w) 0 rest := by
  induction w generalizing p with
  | nil => rfl
  | cons c w ih => exact ih (p.advance c)

/-- Blanks are passed over. -/
lemma lexFrom_blanks {gap : List Char} (h : gap.all Text.isBlank = true) (acc : List Lexeme)
    (p : Pos) (rest : List Char) :
    lexFrom acc p 0 (gap ++ rest) = lexFrom acc (p.after gap) 0 rest := by
  induction gap generalizing p with
  | nil => rfl
  | cons c gap ih =>
      obtain ⟨hc, hgap⟩ := Bool.and_eq_true_iff.mp h
      rw [List.cons_append, lexFrom, if_pos hc]
      exact ih hgap (p.advance c)

/-- A word makes a token at the place where it starts. -/
lemma lexFrom_word {c : Char} {w rest : List Char} {t : Token} (hc : Text.isBlank c = false)
    (ht : scan c (w ++ rest) = .ok (t, w.length)) (acc : List Lexeme) (p : Pos) :
    lexFrom acc p 0 (c :: w ++ rest) = lexFrom (⟨t, p⟩ :: acc) (p.after (c :: w)) 0 rest := by
  rw [List.cons_append, lexFrom, if_neg (by simp [hc]), ht]
  exact lexFrom_owed _ _ w rest

/-- What is cut up is what the lexer finds. -/
lemma Cuts.lexFrom {p : Pos} {cs : List Char} {ls : List Lexeme} (h : Cuts p cs ls)
    (acc : List Lexeme) :
    lexFrom acc p 0 cs = .ok (acc.reverse ++ ls) := by
  induction h generalizing acc with
  | @stop p gap hgap =>
      have hend := lexFrom_blanks hgap acc p []
      rw [List.append_nil] at hend
      rw [hend, Token.lexFrom, List.reverse_cons]
  | word hgap hc ht _ ih =>
      rw [List.append_assoc, lexFrom_blanks hgap, lexFrom_word hc ht, ← Pos.after_append, ih,
        List.reverse_cons, List.append_assoc, List.singleton_append]

/-- A text starts with blanks, and then there is something else or nothing. -/
lemma exists_gap (cs : List Char) :
    ∃ gap rest, cs = gap ++ rest ∧ gap.all Text.isBlank = true ∧
      ∀ c ∈ rest.head?, Text.isBlank c = false := by
  refine ⟨cs.takeWhile Text.isBlank, cs.dropWhile Text.isBlank,
    List.takeWhile_append_dropWhile.symm,
    List.all_eq_true.mpr fun _ => List.mem_takeWhile_imp, fun c hc => ?_⟩
  have hhead := List.head?_dropWhile_not Text.isBlank cs
  rw [hc] at hhead
  simpa using hhead

/-- What the lexer finds is cut up; the induction follows the lexer. -/
lemma cuts_of_lexFrom {acc : List Lexeme} {p : Pos} {cs : List Char} {ls : List Lexeme}
    (h : Token.lexFrom acc p 0 cs = .ok ls) : ∃ ls', ls = acc.reverse ++ ls' ∧ Cuts p cs ls' := by
  induction hlen : cs.length using Nat.strongRecOn generalizing acc p cs with
  | ind k ih =>
      obtain ⟨gap, rest, rfl, hgap, hrest⟩ := exists_gap cs
      rw [lexFrom_blanks hgap] at h
      cases rest with
      | nil =>
          rw [Token.lexFrom, List.reverse_cons] at h
          cases h
          exact ⟨_, rfl, (List.append_nil gap).symm ▸ .stop hgap⟩
      | cons c rest =>
          have hc := hrest c rfl
          cases hscan : scan c rest with
          | error e =>
              rw [Token.lexFrom, if_neg (by simp [hc]), hscan] at h
              cases h
          | ok found =>
              obtain ⟨t, n⟩ := found
              obtain ⟨⟨w, rest, rfl, hn, -⟩, -⟩ := scan_alone hscan
              rw [hn, Nat.zero_add] at hscan
              rw [← List.cons_append, lexFrom_word hc hscan, ← Pos.after_append] at h
              have hlt : rest.length < k := by
                simp only [← hlen, List.length_append, List.length_cons]
                omega
              obtain ⟨ls', rfl, hcuts⟩ := ih rest.length hlt h rfl
              refine ⟨⟨t, p.after gap⟩ :: ls', by simp, ?_⟩
              have hwhole := Cuts.word hgap hc hscan hcuts
              rwa [List.append_assoc] at hwhole

end Token

/-- **The lexer cuts the text.** -/
theorem lex_eq_ok_iff {source : String} {ls : List Lexeme} :
    lex source = .ok ls ↔ Token.Cuts .start source.toList ls := by
  constructor
  · intro h
    obtain ⟨ls', rfl, hcuts⟩ := Token.cuts_of_lexFrom h
    exact hcuts
  · exact fun h => h.lexFrom []

/-! ## Pieces -/

/-- A word of a text and the blanks in front of it. -/
structure Piece where
  gap : List Char
  word : List Char

/-- The characters of a piece. -/
def Piece.chars (q : Piece) : List Char :=
  q.gap ++ q.word

/-- The characters in front of the word of the piece with number `i`. -/
def Piece.before (pieces : List Piece) (i : Nat) (h : i < pieces.length) : List Char :=
  (pieces.take i).flatMap Piece.chars ++ pieces[i].gap

lemma Piece.before_cons (q : Piece) (pieces : List Piece) (i : Nat)
    (h : i + 1 < (q :: pieces).length) :
    before (q :: pieces) (i + 1) h = q.chars ++ before pieces i (Nat.lt_of_succ_lt_succ h) := by
  simp [before]

/-- Whether a text is one token on its own. -/
def Token.IsText (t : Token) (text : List Char) : Prop :=
  ∃ stop, lex (String.ofList text) = .ok [⟨t, .start⟩, ⟨.eof, stop⟩]

/-- The pieces and the blanks behind them make up a text, and the lexemes are what the pieces are,
each at the place that what stands in front of it gives. -/
structure Partition (place : List Char → Pos) (source : List Char) (ls : List Lexeme)
    (pieces : List Piece) (rest : List Char) : Prop where
  whole : source = pieces.flatMap Piece.chars ++ rest
  gaps : ∀ q ∈ pieces, q.gap.all Text.isBlank = true
  words : ∀ q ∈ pieces, q.word ≠ []
  blank_rest : rest.all Text.isBlank = true
  count : ls.length = pieces.length + 1
  stop : ls.getLast? = some ⟨.eof, place source⟩
  only_stop : ∀ l ∈ ls.dropLast, l.token ≠ .eof
  tokens : ∀ i (h : i < pieces.length), ls[i].token.IsText pieces[i].word
  places : ∀ i (h : i < pieces.length), ls[i].pos = place (Piece.before pieces i h)

lemma Token.isText_of_scan {c : Char} {w rest : List Char} {t : Token} (hc : Text.isBlank c = false)
    (ht : scan c (w ++ rest) = .ok (t, w.length)) : t.IsText (c :: w) := by
  obtain ⟨⟨w', rest', hw, hn, halone⟩, -⟩ := scan_alone ht
  obtain ⟨rfl, rfl⟩ := List.append_inj hw (by omega)
  have hcuts : Cuts .start ([] ++ c :: w ++ []) [⟨t, .start⟩, ⟨.eof, Pos.start.after (c :: w)⟩] :=
    .word rfl hc (by rwa [List.append_nil]) (.stop rfl)
  refine ⟨Pos.start.after (c :: w), lex_eq_ok_iff.mpr ?_⟩
  rw [String.toList_ofList]
  simpa using hcuts

/-- One piece more in front. -/
lemma Partition.cons {p : Pos} {gap : List Char} {c : Char} {w rest : List Char} {t : Token}
    {ls : List Lexeme} {pieces : List Piece} {tail : List Char} (hgap : gap.all Text.isBlank = true)
    (ht : t.IsText (c :: w)) (hne : t ≠ .eof)
    (h : Partition (p.after (gap ++ c :: w)).after rest ls pieces tail) :
    Partition p.after (gap ++ c :: w ++ rest) (⟨t, p.after gap⟩ :: ls)
      (⟨gap, c :: w⟩ :: pieces) tail := by
  have hls : ls ≠ [] := List.ne_nil_of_length_pos (by rw [h.count]; omega)
  constructor
  case whole => simp [Piece.chars, h.whole]
  case gaps => exact List.forall_mem_cons.mpr ⟨hgap, h.gaps⟩
  case words => exact List.forall_mem_cons.mpr ⟨by simp, h.words⟩
  case blank_rest => exact h.blank_rest
  case count => simp [h.count]
  case stop => rw [List.getLast?_cons_of_ne_nil hls, h.stop, ← Pos.after_append]
  case only_stop =>
    rw [List.dropLast_cons_of_ne_nil hls]
    exact List.forall_mem_cons.mpr ⟨hne, h.only_stop⟩
  case tokens =>
    rintro (_ | i) hi
    · exact ht
    · exact h.tokens i (Nat.lt_of_succ_lt_succ hi)
  case places =>
    rintro (_ | i) hi
    · rfl
    · have hplace := h.places i (Nat.lt_of_succ_lt_succ hi)
      rw [← Pos.after_append] at hplace
      rw [Piece.before_cons]
      exact hplace

/-- What is cut is in pieces; `p` is where the text begins. -/
lemma Token.Cuts.exists_partition {p : Pos} {cs : List Char} {ls : List Lexeme}
    (h : Token.Cuts p cs ls) :
    ∃ pieces rest, Partition p.after cs ls pieces rest := by
  induction h with
  | @stop p gap hgap => exact ⟨[], gap, by constructor <;> simp [hgap]⟩
  | word hgap hc ht _ ih =>
      obtain ⟨pieces, tail, hp⟩ := ih
      exact ⟨_, _, hp.cons hgap (isText_of_scan hc ht) (scan_alone ht).ne_eof⟩

/-- **Words and blanks make up the text.**  Every word is one token on its own, the tokens come in
the order of the words with the end of the text behind them, and each has the place that is read off
from the text. -/
theorem lex_partitions {source : String} {ls : List Lexeme} (h : lex source = .ok ls) :
    ∃ pieces rest, Partition Pos.behind source.toList ls pieces rest := by
  have hplace : Pos.start.after = Pos.behind := funext Pos.after_start
  exact hplace ▸ (lex_eq_ok_iff.mp h).exists_partition

/-- A literal over two lines with a quote in it, a comment, a number with a point, and signs that
touch their neighbours. -/
def layered : String :=
  "s=\"a\\\"\n\\t\"; // x \n  1.5<=0xFf"

set_option maxRecDepth 100000 in
/-- The second line of the literal counts, and so does the comment. -/
theorem layered_partitions :
    ∃ ls, lex layered = .ok ls ∧
      ls.map Lexeme.pos = [⟨1, 1⟩, ⟨1, 2⟩, ⟨1, 3⟩, ⟨2, 4⟩, ⟨2, 6⟩, ⟨3, 3⟩, ⟨3, 6⟩,
        ⟨3, 8⟩, ⟨3, 12⟩] ∧
      ∃ pieces rest, Partition Pos.behind layered.toList ls pieces rest := by
  have hpos : ((lex layered).map (List.map Lexeme.pos)).toOption =
      some [⟨1, 1⟩, ⟨1, 2⟩, ⟨1, 3⟩, ⟨2, 4⟩, ⟨2, 6⟩, ⟨3, 3⟩, ⟨3, 6⟩, ⟨3, 8⟩, ⟨3, 12⟩] := by
    decide +kernel
  cases hls : lex layered with
  | error e =>
      rw [hls] at hpos
      cases hpos
  | ok ls =>
      rw [hls] at hpos
      exact ⟨ls, rfl, Option.some.inj hpos, lex_partitions hls⟩

end Marmoset
