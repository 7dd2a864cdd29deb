import Marmoset.Proofs.TextPieces
import Mathlib.Data.List.Basic

/-!
# Tokens as they are written

`Token.Spelled` says how tokens are written: integers in decimal or hexadecimal digits, strings
between quotes with escapes, names, keywords and signs as they are.  A token that is written so is
found again wherever the next character cannot go on with it (`Token.endsBefore`), whatever comes
after that character.

* `Token.Spelled.scan` — the scanner finds a written token and takes its characters.
* `Token.Yields` — a text of written tokens, built up from the back; `Token.Yields.cuts` says that
  it is cut into them.
* **`lex_spelled`** — tokens that are written with single blanks between them are found again.
-/

namespace Marmoset

namespace Token

/-! ## Character classes -/

/-- What starts a name may go on with one. -/
lemma isNamePart_of_isNameStart {c : Char} (h : isNameStart c = true) : isNamePart c = true := by
  simp only [isNameStart, isNamePart, Bool.or_eq_true] at h ⊢
  exact h.imp_left .inl

/-- The code points of the blanks. -/
def blanks : List Nat :=
  List.range' 9 5 ++ [0x20, 0x85, 0xa0, 0x1680] ++ List.range' 0x2000 11 ++
    [0x2028, 0x2029, 0x202f, 0x205f, 0x3000]

lemma toNat_mem_blanks {c : Char} (h : Text.isBlank c = true) : c.toNat ∈ blanks := by
  simp only [Text.isBlank, Bool.or_eq_true, Bool.and_eq_true, decide_eq_true_eq, beq_iff_eq] at h
  simp only [blanks, List.mem_append, List.mem_range'_1, List.mem_cons, List.not_mem_nil, or_false]
  omega

/-- No name starts with a blank. -/
lemma isBlank_of_isNameStart {c : Char} (h : isNameStart c = true) : Text.isBlank c = false := by
  cases hb : Text.isBlank c with
  | false => rfl
  | true =>
      have hall : ∀ n ∈ blanks, isNameStart (Char.ofNat n) = false := by decide +kernel
      have hc := hall c.toNat (toNat_mem_blanks hb)
      rw [Char.ofNat_toNat, h] at hc
      cases hc

lemma toNat_of_isDigit {c : Char} (h : c.isDigit = true) : 48 ≤ c.toNat ∧ c.toNat ≤ 57 := by
  simpa [Char.isDigit, UInt32.le_iff_toNat_le] using h

lemma isBlank_of_isDigit {c : Char} (h : c.isDigit = true) : Text.isBlank c = false := by
  have hn := toNat_of_isDigit h
  simp only [Text.isBlank, Bool.or_eq_false_iff, Bool.and_eq_false_iff, decide_eq_false_iff_not,
    beq_eq_false_iff_ne]
  omega

/-- No name starts with a digit. -/
lemma isDigit_of_isNameStart {c : Char} (h : isNameStart c = true) : c.isDigit = false := by
  cases hd : c.isDigit with
  | false => rfl
  | true =>
      have hall : ∀ n ∈ List.range' 48 10, isNameStart (Char.ofNat n) = false := by decide
      have hn := toNat_of_isDigit hd
      have hc := hall c.toNat (List.mem_range'_1.mpr (by omega))
      rw [Char.ofNat_toNat, h] at hc
      cases hc

/-- Digits of either base go on with a name. -/
lemma isNamePart_of_isHexDigit {c : Char} (h : isHexDigit c = true) : isNamePart c = true := by
  have hall : ∀ n ∈ List.range' 48 10 ++ List.range' 65 6 ++ List.range' 97 6,
      isNamePart (Char.ofNat n) = true := by
    decide
  have hn : c.toNat ∈ List.range' 48 10 ++ List.range' 65 6 ++ List.range' 97 6 := by
    simp only [isHexDigit, Bool.or_eq_true, Bool.and_eq_true, decide_eq_true_eq, Char.le_def,
      UInt32.le_iff_toNat_le] at h
    simp only [List.mem_append, List.mem_range'_1]
    rcases h with (h | h) | h
    · have := toNat_of_isDigit h
      omega
    · have h₁ : 97 ≤ c.toNat := h.1
      have h₂ : c.toNat ≤ 102 := h.2
      omega
    · have h₁ : 65 ≤ c.toNat := h.1
      have h₂ : c.toNat ≤ 70 := h.2
      omega
  have hc := hall c.toNat hn
  rwa [Char.ofNat_toNat] at hc

/-! ## What is written -/

/-- Whether a text is a word: it starts like a name and goes on like one. -/
def isWord (text : String) : Bool :=
  match text.toList with
  | [] => false
  | c :: cs => isNameStart c && cs.all isNamePart

/-- Whether a text is a name: a word that is not reserved. -/
def isName (text : String) : Bool :=
  isWord text && (Keyword.ofText? text).isNone

/-- A character as it is written between quotes. -/
def escaped (c : Char) : List Char :=
  if c = '\n' then ['\\', 'n']
  else if c = '\t' then ['\\', 't']
  else if c = '\r' then ['\\', 'r']
  else if c = '\\' then ['\\', '\\']
  else if c = '"' then ['\\', '"']
  else if c = '\x00' then ['\\', '0']
  else [c]

/-- A string between quotes. -/
def quoted (s : String) : String :=
  String.ofList ('"' :: s.toList.flatMap escaped ++ ['"'])

/-- The token is written so.  There is nothing here for numbers with a fraction, for comments and
for the end of the text. -/
inductive Spelled : Token → String → Prop where
  | decimal {n : Int64} (hn : 0 ≤ n.toInt) : Spelled (.integer n) (Token.integer n).text
  /-- The mark and every digit may be a small letter or a capital one. -/
  | hex {n : Int64} (hn : 0 ≤ n.toInt) {mark : Char} (hmark : mark = 'x' ∨ mark = 'X')
      {digits : List Char}
      (hdigits : digits.map Char.toLower = Nat.toDigits 16 n.toInt.toNat) :
      Spelled (.integer n) (String.ofList ('0' :: mark :: digits))
  | string (s : String) : Spelled (.string s) (quoted s)
  | ident {name : String} (hname : isName name = true) :
      Spelled (.ident name) (Token.ident name).text
  | keyword (k : Keyword) : Spelled (.keyword k) (Token.keyword k).text
  | sign (s : Sign) : Spelled (.sign s) (Token.sign s).text

/-- Whether a token ends where `c` follows it. -/
def endsBefore (t : Token) (c : Char) : Bool :=
  match t with
  | .string _ => true
  | .sign _ => c != '=' && c != '/'
  | _ => !isNamePart c && c != '.'

/-- The token ends where `rest` follows it. -/
def EndsAt (t : Token) (rest : List Char) : Prop :=
  ∀ c ∈ rest.head?, t.endsBefore c = true

/-! ## Names -/

/-- Every keyword is a word. -/
lemma isWord_keyword (k : Keyword) : isWord k.text = true := by
  cases k <;> decide

/-- And is found by its text. -/
lemma ofText?_keyword (k : Keyword) : Keyword.ofText? k.text = some k := by
  cases k <;> decide

/-- A word is found as the keyword that it spells or as a name. -/
lemma scan_word {text : String} (h : isWord text = true) {rest : List Char}
    (hrest : ∀ d ∈ rest.head?, isNamePart d = false) :
    ∃ c cs, text.toList = c :: cs ∧ Text.isBlank c = false ∧
      scan c (cs ++ rest) =
        .ok (((Keyword.ofText? text).map Token.keyword).getD (.ident text), cs.length) := by
  unfold isWord at h
  split at h
  · cases h
  · next c cs htext =>
      simp only [Bool.and_eq_true, List.all_eq_true] at h
      obtain ⟨hc, hcs⟩ := h
      have hslash : c ≠ '/' := by
        rintro rfl
        cases hc
      have hquote : c ≠ '"' := by
        rintro rfl
        cases hc
      refine ⟨c, cs, htext, isBlank_of_isNameStart hc, ?_⟩
      have hspelled : String.ofList (c :: cs) = text := by rw [← htext, String.ofList_toList]
      simp only [scan, hslash, hquote, isDigit_of_isNameStart hc, hc, scanWord,
        (run_append rest hcs hrest).1, hspelled, false_and, if_false, if_true, Bool.false_eq_true]
      cases Keyword.ofText? text with
      | none => rfl
      | some k => rfl

/-! ## Digits -/

/-- A digit in either case is worth what its small letter is worth. -/
lemma digitValue_of_toLower {d : Char} {j : Nat} (hj : j < 16) (h : d.toLower = Nat.digitChar j) :
    isHexDigit d = true ∧ digitValue d = j := by
  have hsmall : ∀ j < 16, isHexDigit (Nat.digitChar j) = true ∧
      digitValue (Nat.digitChar j) = j := by decide
  have hcapital : ∀ n ∈ List.range' 65 26, ∀ j < 16, (Char.ofNat n).toLower = Nat.digitChar j →
      isHexDigit (Char.ofNat n) = true ∧ digitValue (Char.ofNat n) = j := by
    decide +kernel
  by_cases hd : 'A'.val ≤ d.val ∧ d.val ≤ 'Z'.val
  · have hn : d.toNat ∈ List.range' 65 26 := by
      have h₁ : 65 ≤ d.toNat := UInt32.le_iff_toNat_le.mp hd.1
      have h₂ : d.toNat ≤ 90 := UInt32.le_iff_toNat_le.mp hd.2
      exact List.mem_range'_1.mpr (by omega)
    have hc := hcapital d.toNat hn j hj
    rw [Char.ofNat_toNat] at hc
    exact hc h
  · have hd' : d.toLower = d := dif_neg hd
    rw [hd'] at h
    rw [h]
    exact hsmall j hj

lemma toLower_of_isDigit {d : Char} (h : d.isDigit = true) : d.toLower = id d := by
  have hn := toNat_of_isDigit h
  refine dif_neg fun hd => ?_
  have hle : 65 ≤ d.toNat := UInt32.le_iff_toNat_le.mp hd.1
  omega

/-- One more digit behind the others. -/
lemma numberOf_append_singleton (base : Nat) (ds : List Char) (d : Char) :
    numberOf base (ds ++ [d]) = numberOf base ds * base + digitValue d := by
  rw [numberOf, List.foldl_append]
  rfl

/-- The digits of a number spell it. -/
lemma numberOf_digits {base : Nat} (hbase : 1 < base) (hbase' : base ≤ 16) (n : Nat)
    {ds : List Char} (h : ds.map Char.toLower = Nat.toDigits base n) :
    numberOf base ds = n ∧ ∀ d ∈ ds, isHexDigit d = true := by
  induction n using Nat.strongRecOn generalizing ds with
  | ind n ih =>
      by_cases hn : n < base
      · rw [Nat.toDigits_of_lt_base hn] at h
        obtain ⟨d, rfl, hd⟩ := List.map_eq_singleton_iff.mp h
        obtain ⟨hhex, hvalue⟩ := digitValue_of_toLower (Nat.lt_of_lt_of_le hn hbase') hd
        exact ⟨by simp [numberOf, hvalue], by simpa using hhex⟩
      · have hle := Nat.not_lt.mp hn
        rw [Nat.toDigits_of_base_le hbase hle] at h
        obtain ⟨front, last, rfl, hfront, hlast⟩ := List.map_eq_append_iff.mp h
        obtain ⟨d, rfl, hd⟩ := List.map_eq_singleton_iff.mp hlast
        have hmod : n % base < base := Nat.mod_lt _ (by omega)
        obtain ⟨hhex, hvalue⟩ := digitValue_of_toLower (Nat.lt_of_lt_of_le hmod hbase') hd
        obtain ⟨hnumber, hall⟩ := ih (n / base) (Nat.div_lt_self (by omega) hbase) hfront
        refine ⟨?_, List.forall_mem_append.mpr ⟨hall, by simpa using hhex⟩⟩
        rw [numberOf_append_singleton, hnumber, hvalue, Nat.div_add_mod']

/-- A number of the language that is not negative, as the number that is written for it. -/
lemma exists_of_nonneg {n : Int64} (hn : 0 ≤ n.toInt) :
    ∃ k : Nat, n.toInt = k ∧ n = Int64.ofNat k ∧ k < integerBound := by
  obtain ⟨k, hk⟩ := Int.eq_ofNat_of_zero_le hn
  refine ⟨k, hk, ?_, ?_⟩
  · rw [← Int64.ofInt_eq_ofNat, ← hk, Int64.ofInt_toInt]
  · have hlt := n.toInt_lt
    rw [hk] at hlt
    have hbound : (2 : Int) ^ 63 = (integerBound : Int) := by decide
    omega

/-- Such a number is written with its digits. -/
lemma toList_text_integer {n : Int64} {k : Nat} (h : n.toInt = k) :
    (Token.integer n).text.toList = Nat.toDigits 10 k := by
  have htext : (Token.integer n).text = toString k := by
    rw [Token.text, h]
    rfl
  rw [htext, Nat.toString_eq_ofList_toDigits, String.toList_ofList]

/-- A digit starts a number. -/
lemma scan_digit {c : Char} (hc : c.isDigit = true) (cs : List Char) :
    scan c cs = scanNumber c cs := by
  have hslash : c ≠ '/' := by
    rintro rfl
    cases hc
  have hquote : c ≠ '"' := by
    rintro rfl
    cases hc
  simp only [scan, hslash, hquote, hc, false_and, if_false, if_true]

/-- What goes on with no name goes on with no number either. -/
lemma isDigit_of_isNamePart {c : Char} (h : isNamePart c = false) : c.isDigit = false := by
  cases hd : c.isDigit with
  | false => rfl
  | true =>
      rw [isNamePart_of_isHexDigit (by simp [isHexDigit, hd])] at h
      cases h

/-- A number is found from its decimal digits, where neither a part of a name nor a point follows.
-/
lemma scan_decimal {k : Nat} (hk : k < integerBound) {rest : List Char}
    (hrest : ∀ d ∈ rest.head?, isNamePart d = false ∧ d ≠ '.') :
    ∃ c cs, Nat.toDigits 10 k = c :: cs ∧ Text.isBlank c = false ∧
      scan c (cs ++ rest) = .ok (.integer (Int64.ofNat k), cs.length) := by
  obtain ⟨c, cs, hcs⟩ := List.exists_cons_of_ne_nil (Nat.toDigits_ne_nil (n := k) (b := 10))
  have hdigits : ∀ d ∈ c :: cs, d.isDigit = true := fun d hd =>
    Nat.isDigit_of_mem_toDigits (by decide) (Nat.le_refl 10) (hcs ▸ hd)
  obtain ⟨hc, hds⟩ := List.forall_mem_cons.mp hdigits
  have hlower : (c :: cs).map Char.toLower = c :: cs :=
    (List.map_congr_left fun d hd => toLower_of_isDigit (hdigits d hd)).trans (List.map_id _)
  have hnumber : numberOf 10 (c :: cs) = k :=
    (numberOf_digits (by decide) (by decide) k (hlower.trans hcs.symm)).1
  refine ⟨c, cs, hcs, isBlank_of_isDigit hc, ?_⟩
  rw [scan_digit hc, scanNumber_decimal, scanDecimal_integer rest hds, hnumber]
  · exact fun d hd => ⟨isDigit_of_isNamePart (hrest d hd).1, (hrest d hd).2⟩
  · rwa [hnumber]
  · intro _ d hd
    have hno : d.isDigit = true ∨ isNamePart d = false := by
      cases cs with
      | nil => exact .inr (hrest d hd).1
      | cons e es =>
          cases hd
          exact .inl (hds _ List.mem_cons_self)
    constructor
    all_goals
      rintro rfl
      rcases hno with hno | hno <;> cases hno

/-- So it is from its hexadecimal digits in either case. -/
lemma scan_hex {k : Nat} (hk : k < integerBound) {mark : Char} (hmark : mark = 'x' ∨ mark = 'X')
    {digits : List Char} (hdigits : digits.map Char.toLower = Nat.toDigits 16 k) {rest : List Char}
    (hrest : ∀ d ∈ rest.head?, isNamePart d = false) :
    scan '0' (mark :: digits ++ rest) = .ok (.integer (Int64.ofNat k), digits.length + 1) := by
  obtain ⟨hnumber, hhex⟩ := numberOf_digits (by decide) (Nat.le_refl 16) k hdigits
  have hstop : ∀ d ∈ rest.head?, isHexDigit d = false := by
    intro d hd
    cases hx : isHexDigit d with
    | false => rfl
    | true =>
        have hno := hrest d hd
        rw [isNamePart_of_isHexDigit hx] at hno
        cases hno
  have hne : digits.isEmpty = false := by
    cases digits with
    | nil => exact absurd hdigits.symm Nat.toDigits_ne_nil
    | cons d ds => rfl
  have hscan : scanHex (digits ++ rest) = .ok (.integer (Int64.ofNat k), digits.length + 1) := by
    simp only [scanHex, (run_append rest hhex hstop).1, hne, hnumber, Bool.false_eq_true,
      if_false, if_pos hk, Nat.add_comm 1]
  rw [scan_digit rfl]
  rcases hmark with rfl | rfl
  · exact hscan
  · exact hscan

/-! ## Strings -/

/-- A character is written with a backslash, or stands for itself. -/
lemma escaped_cases (c : Char) :
    (∃ d, escaped c = ['\\', d] ∧ unescape d = some c) ∨ escaped c = [c] ∧ c ≠ '\\' ∧ c ≠ '"' := by
  unfold escaped
  split_ifs with h₁ h₂ h₃ h₄ h₅ h₆
  · exact .inl ⟨_, rfl, by rw [h₁]; rfl⟩
  · exact .inl ⟨_, rfl, by rw [h₂]; rfl⟩
  · exact .inl ⟨_, rfl, by rw [h₃]; rfl⟩
  · exact .inl ⟨_, rfl, by rw [h₄]; rfl⟩
  · exact .inl ⟨_, rfl, by rw [h₅]; rfl⟩
  · exact .inl ⟨_, rfl, by rw [h₆]; rfl⟩
  · exact .inr ⟨rfl, h₄, h₅⟩

/-- What was escaped is read back, up to the closing quote. -/
lemma scanString_escaped (acc : List Char) (n : Nat) (s rest : List Char) :
    scanString acc n (s.flatMap escaped ++ '"' :: rest) =
      .ok (.string (String.ofList (acc.reverse ++ s)), n + (s.flatMap escaped).length + 1) := by
  induction s generalizing acc n with
  | nil => simp [scanString_char]
  | cons c s ih =>
      rw [List.flatMap_cons]
      rcases escaped_cases c with ⟨d, hd, hc⟩ | ⟨hc, hback, hquote⟩
      · rw [hd, List.append_assoc, List.cons_append, List.cons_append, List.nil_append,
          scanString, hc]
        simp only [ih, List.reverse_cons, List.append_assoc, List.cons_append, List.nil_append,
          List.length_cons]
        congr 3
        omega
      · rw [hc, List.append_assoc, List.cons_append, List.nil_append, scanString_char hback,
          if_neg hquote, ih]
        simp only [List.reverse_cons, List.append_assoc, List.cons_append, List.nil_append,
          List.length_cons]
        congr 3
        omega

/-! ## Signs -/

/-- A character that starts a sign starts nothing else but a comment. -/
lemma isSolid_of_signAt {c : Char} {next : Option Char} {found : Sign × Nat}
    (h : signAt c next = some found) :
    Text.isBlank c = false ∧ c ≠ '"' ∧ c.isDigit = false ∧ isNameStart c = false := by
  unfold signAt at h
  split at h
  all_goals first | decide | cases h

/-- A sign is found where no comment starts. -/
lemma scan_sign {c : Char} {cs : List Char} {s : Sign} {n : Nat}
    (hs : signAt c cs.head? = some (s, n)) (hslash : ¬(c = '/' ∧ cs.head? = some '/')) :
    scan c cs = .ok (.sign s, n) := by
  obtain ⟨-, hquote, hdigit, hname⟩ := isSolid_of_signAt hs
  rw [scan, if_neg hslash, if_neg hquote, if_neg (by simp [hdigit]), if_neg (by simp [hname]), hs]

/-- A sign of one character is the same in front of anything but an equals sign. -/
lemma signAt_of_none {c : Char} {found : Sign × Nat} (h : signAt c none = some found)
    {next : Option Char} (hnext : next ≠ some '=') : signAt c next = some found := by
  unfold signAt at h
  split at h
  all_goals first | exact h | exact (if_neg hnext).trans h | cases h

/-- The first character of a sign, and how the sign is found. -/
lemma exists_signAt (s : Sign) {rest : List Char} (hrest : (Token.sign s).EndsAt rest) :
    ∃ c cs, s.text.toList = c :: cs ∧ signAt c (cs ++ rest).head? = some (s, cs.length) ∧
      ¬(c = '/' ∧ (cs ++ rest).head? = some '/') := by
  have hequal : rest.head? ≠ some '=' := fun h => absurd (hrest '=' h) (by simp [endsBefore])
  have hslash : rest.head? ≠ some '/' := fun h => absurd (hrest '/' h) (by simp [endsBefore])
  have halone : (s.text.toList.head?.any fun c =>
      decide (signAt c s.text.toList.tail.head? = some (s, s.text.toList.tail.length)) &&
        (s.text.toList.tail.isEmpty || c != '/')) = true := by
    cases s <;> decide
  obtain ⟨c, hc, hc'⟩ := (Option.any_eq_true _ _).mp halone
  simp only [Bool.and_eq_true, decide_eq_true_eq, Bool.or_eq_true, List.isEmpty_iff,
    bne_iff_ne] at hc'
  obtain ⟨hsign, hlong⟩ := hc'
  refine ⟨c, s.text.toList.tail, List.eq_cons_of_mem_head? hc, ?_⟩
  cases htail : s.text.toList.tail with
  | nil =>
      rw [htail] at hsign
      exact ⟨signAt_of_none hsign hequal, fun h => hslash h.2⟩
  | cons d ds =>
      rw [htail] at hsign hlong
      exact ⟨hsign, fun h => hlong.resolve_left (by simp) h.1⟩

/-! ## All of them -/

/-- **A token that is written is found,** where something follows that does not go on with it. -/
theorem Spelled.scan {t : Token} {text : String} (h : Spelled t text) {rest : List Char}
    (hrest : t.EndsAt rest) :
    ∃ c cs, text.toList = c :: cs ∧ Text.isBlank c = false ∧
      Token.scan c (cs ++ rest) = .ok (t, cs.length) := by
  -- names and numbers end where no name goes on
  have hword (hw : ∀ c, t.endsBefore c = (!isNamePart c && c != '.')) :
      ∀ c ∈ rest.head?, isNamePart c = false ∧ c ≠ '.' := by
    intro c hc
    have hend := hrest c hc
    rw [hw] at hend
    simpa using hend
  cases h with
  | decimal hn =>
      obtain ⟨k, hk, rfl, hfits⟩ := exists_of_nonneg hn
      obtain ⟨c, cs, hcs, hblank, hscan⟩ := scan_decimal hfits (hword fun _ => rfl)
      exact ⟨c, cs, (toList_text_integer hk).trans hcs, hblank, hscan⟩
  | @hex n hn mark hmark digits hdigits =>
      obtain ⟨k, hk, rfl, hfits⟩ := exists_of_nonneg hn
      rw [hk, Int.toNat_natCast] at hdigits
      exact ⟨'0', mark :: digits, String.toList_ofList, by decide,
        scan_hex hfits hmark hdigits fun d hd => (hword (fun _ => rfl) d hd).1⟩
  | string s =>
      refine ⟨'"', s.toList.flatMap escaped ++ ['"'], String.toList_ofList, by decide, ?_⟩
      rw [Token.scan, if_neg (fun h => absurd h.1 (by decide)), if_pos rfl, List.append_assoc,
        List.singleton_append, scanString_escaped, List.length_append]
      simp
  | @ident name hname =>
      obtain ⟨hw, hnone⟩ := Bool.and_eq_true_iff.mp hname
      have hscan := scan_word hw fun d hd => (hword (fun _ => rfl) d hd).1
      rwa [Option.isNone_iff_eq_none.mp hnone] at hscan
  | keyword k =>
      have hscan := scan_word (isWord_keyword k) fun d hd => (hword (fun _ => rfl) d hd).1
      rwa [ofText?_keyword k] at hscan
  | sign s =>
      obtain ⟨c, cs, hcs, hsign, hslash⟩ := exists_signAt s hrest
      exact ⟨c, cs, hcs, (isSolid_of_signAt hsign).1, scan_sign hsign hslash⟩

/-! ## Texts from the back -/

/-- A text of written tokens: blanks may stand anywhere, and a token in front of what does not go on
with it. -/
inductive Yields : List Char → List Token → Prop where
  | nil : Yields [] []
  | blank {c : Char} {cs : List Char} {ts : List Token} (hc : Text.isBlank c = true)
      (h : Yields cs ts) :
      Yields (c :: cs) ts
  | token {t : Token} {text : String} {cs : List Char} {ts : List Token} (ht : Spelled t text)
      (hrest : t.EndsAt cs)
      (h : Yields cs ts) : Yields (text.toList ++ cs) (t :: ts)

/-- A blank more in front of a text changes none of its tokens. -/
lemma Cuts.blank {c : Char} {cs : List Char} {p : Pos} {ls : List Lexeme}
    (hc : Text.isBlank c = true) (h : Cuts (p.advance c) cs ls) : Cuts p (c :: cs) ls := by
  have hgap {gap : List Char} (hgap : gap.all Text.isBlank = true) :
      (c :: gap).all Text.isBlank = true := by
    rw [List.all_cons, hc, hgap]
    rfl
  cases h with
  | stop hb => exact .stop (hgap hb)
  | word hb hd ht hrest => exact @Cuts.word p (c :: _) _ _ _ _ _ (hgap hb) hd ht hrest

/-- Such a text is cut into its tokens, wherever it stands. -/
lemma Yields.cuts {cs : List Char} {ts : List Token} (h : Yields cs ts) (p : Pos) :
    ∃ ls, Cuts p cs ls ∧ ls.map Lexeme.token = ts ++ [.eof] := by
  induction h generalizing p with
  | nil => exact ⟨_, .stop rfl, rfl⟩
  | @blank c cs ts hc _ ih =>
      obtain ⟨ls, hcuts, hls⟩ := ih (p.advance c)
      exact ⟨ls, hcuts.blank hc, hls⟩
  | @token t text cs ts ht hrest _ ih =>
      obtain ⟨c, w, htext, hc, hscan⟩ := ht.scan hrest
      obtain ⟨ls, hcuts, hls⟩ := ih (p.after (c :: w))
      refine ⟨⟨t, p⟩ :: ls, ?_, by rw [List.map_cons, hls, List.cons_append]⟩
      rw [htext]
      exact @Cuts.word p [] c w cs t ls rfl hc hscan hcuts

/-- What the lexer makes of it. -/
lemma Yields.lex {source : String} {ts : List Token} (h : Yields source.toList ts) :
    ∃ ls, Marmoset.lex source = .ok ls ∧ ls.map Lexeme.token = ts ++ [.eof] := by
  obtain ⟨ls, hcuts, hls⟩ := h.cuts .start
  exact ⟨ls, lex_eq_ok_iff.mpr hcuts, hls⟩

/-- Every token ends in front of a blank. -/
lemma endsBefore_space (t : Token) : t.endsBefore ' ' = true := by
  cases t <;> rfl

/-- Written tokens with a blank between each two. -/
lemma yields_spelled {ts : List Token} {words : List String} (h : List.Forall₂ Spelled ts words) :
    Yields (" ".intercalate words).toList ts := by
  induction h with
  | nil => exact .nil
  | @cons t w ts ws hw hws ih =>
      cases hws with
      | nil =>
          rw [String.intercalate_singleton, ← List.append_nil w.toList]
          exact .token hw (by simp [EndsAt]) .nil
      | cons =>
          rw [String.intercalate_cons_cons, String.toList_append, String.toList_append,
            List.append_assoc]
          refine .token hw (fun c hc => ?_) (.blank rfl ih)
          cases hc
          exact t.endsBefore_space

end Token

/-- **Tokens that are written are found again.**  However each of them is spelled, with single
blanks between them the text has these tokens and no others. -/
theorem lex_spelled {ts : List Token} {words : List String}
    (h : List.Forall₂ Token.Spelled ts words) :
    (lex (" ".intercalate words)).map (List.map Lexeme.token) = .ok (ts ++ [.eof]) := by
  obtain ⟨ls, hlex, hls⟩ := (Token.yields_spelled h).lex
  rw [hlex, ← hls]
  rfl

/-- The greatest integer twice, a string with every escape in it, a keyword and a name that starts
with it, and signs that would be others without the blanks. -/
def extremes : List Token :=
  [.integer 9223372036854775807, .integer 9223372036854775807, .string "\\\"\n//\t\r\x00",
    .keyword .fnWord, .ident "fn_ö1", .sign .slash, .sign .slash, .sign .assign, .sign .equal]

/-- How they may be written. -/
def extremeTexts : List String :=
  ["9223372036854775807", "0X7fFFffffFFFFffff", "\"\\\\\\\"\\n//\\t\\r\\0\"", "fn", "fn_ö1", "/",
    "/", "=", "=="]

set_option maxRecDepth 100000 in
/-- Both spellings of the greatest integer are found, and the signs stay apart. -/
theorem extremes_found :
    List.Forall₂ Token.Spelled extremes extremeTexts ∧
      (lex (" ".intercalate extremeTexts)).map (List.map Lexeme.token) =
        .ok (extremes ++ [.eof]) := by
  have hdecimal : Token.Spelled (.integer 9223372036854775807) "9223372036854775807" :=
    .decimal (by decide)
  have hhex : Token.Spelled (.integer 9223372036854775807) "0X7fFFffffFFFFffff" :=
    @Token.Spelled.hex _ (by decide) 'X' (.inr rfl) "7fFFffffFFFFffff".toList (by decide)
  have hstring : Token.Spelled (.string "\\\"\n//\t\r\x00") "\"\\\\\\\"\\n//\\t\\r\\0\"" :=
    .string _
  have hname : Token.Spelled (.ident "fn_ö1") "fn_ö1" := .ident (by decide +kernel)
  have hall : List.Forall₂ Token.Spelled extremes extremeTexts :=
    .cons hdecimal
      (.cons hhex (.cons hstring (.cons (.keyword _) (.cons hname (.cons (.sign _) (.cons (.sign _)
      (.cons (.sign _) (.cons (.sign _) .nil))))))))
  exact ⟨hall, lex_spelled hall⟩

end Marmoset
