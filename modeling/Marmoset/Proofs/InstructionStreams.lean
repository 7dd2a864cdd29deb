import Marmoset.Proofs.Assembly

/-!
# Streams of instructions

A stream has no marks between its instructions: where the next one starts follows only from the
opcode of the one before.  Writer and reader agree because both take the sizes of operands from the
same table.

* `Instruction.Lines` — what a reader sees, one constructor for each kind of line;
  `lines_decodeFrom` says that `decode` reads this way.
* `Instruction.Line.bytesIn` — the bytes that a line stands for.

`Instruction.streams_exact` puts together both directions, from instructions to bytes and back, and
from any bytes to lines and back, with what becomes of an operand that does not fit.
-/

namespace Marmoset

lemma Width.bound_eq_pow (w : Width) : w.bound = Nat.pow 256 w.bytes := by
  cases w <;> rfl

/-- An operand comes back unchanged exactly if it fits. -/
lemma Width.mod_eq_iff_fits (w : Width) (n : Nat) :
    n % Nat.pow 256 w.bytes = n ↔ w.fits n = true := by
  have hpos : 0 < w.bound := by cases w <;> decide
  rw [← w.bound_eq_pow, Width.fits, decide_eq_true_eq, Nat.mod_eq_iff_lt (Nat.ne_of_gt hpos)]

/-- The bytes of the opcodes are their places in the table. -/
lemma Opcode.toByte_of_ofByte? {b : UInt8} {op : Opcode} (h : Opcode.ofByte? b = some op) :
    op.toByte = b := by
  have htable : Opcode.all.toList.map (fun op => op.toByte.toNat) = List.range 34 := by decide
  have hb : (Opcode.all.toList.map (fun op => op.toByte.toNat))[b.toNat]? =
      some op.toByte.toNat := by
    rw [List.getElem?_map, Array.getElem?_toList, show Opcode.all[b.toNat]? = some op from h,
      Option.map_some]
  rw [htable] at hb
  obtain ⟨hlt, hb⟩ := List.getElem?_eq_some_iff.mp hb
  rw [List.getElem_range] at hb
  exact UInt8.toNat_inj.mp hb.symm

namespace Instruction

/-- Operands that can be read stand in front of the bytes as they are written. -/
lemma readOperands_eq_some {ws : List Width} {ns : List Nat} {bytes : List UInt8}
    (h : readOperands ws bytes = some ns) :
    List.Forall₂ (fun w n => n < Width.bound w) ws ns ∧
      ∃ rest, bytes = (List.zipWith encodeOperand ws ns).flatten ++ rest := by
  induction ws, bytes using readOperands.induct generalizing ns with
  | case1 bytes =>
      rw [readOperands] at h
      cases h
      exact ⟨.nil, bytes, rfl⟩
  | case2 ws b bytes ih =>
      rw [readOperands, Option.map_eq_some_iff] at h
      obtain ⟨ns, h, rfl⟩ := h
      obtain ⟨hfit, rest, rfl⟩ := ih h
      exact ⟨.cons b.toNat_lt hfit, rest, by simp [encodeOperand]⟩
  | case3 ws high low bytes ih =>
      rw [readOperands, Option.map_eq_some_iff] at h
      obtain ⟨ns, h, rfl⟩ := h
      obtain ⟨hfit, rest, rfl⟩ := ih h
      have hh := high.toNat_lt
      have hl := low.toNat_lt
      refine ⟨.cons (by simp only [Width.bound]; omega) hfit, rest, ?_⟩
      have hhigh : ((high.toNat * 256 + low.toNat) / 256).toUInt8 = high := by
        rw [← UInt8.toNat_inj]
        simp only [Nat.toUInt8_eq, UInt8.toNat_ofNat', Nat.reducePow]
        omega
      have hlow : (high.toNat * 256 + low.toNat).toUInt8 = low := by
        rw [← UInt8.toNat_inj]
        simp only [Nat.toUInt8_eq, UInt8.toNat_ofNat', Nat.reducePow]
        omega
      simp only [List.zipWith_cons_cons, encodeOperand, hhigh, hlow, List.flatten_cons,
        List.cons_append, List.nil_append]
  | case4 w ws bytes hbyte hword =>
      rw [readOperands] at h
      · cases h
      · exact hbyte
      · exact hword

/-! ## Lines -/

/-- The lines of the bytes that stand from an offset on. -/
inductive Lines : Nat → List UInt8 → List Line → Prop where
  | done (offset : Nat) : Lines offset [] []
  | undefined {offset : Nat} {b : UInt8} {bytes : List UInt8} {lines : List Line} :
      Opcode.ofByte? b = none → Lines (offset + 1) bytes lines →
      Lines offset (b :: bytes) (.undefined offset b :: lines)
  /-- The operands are cut off; nothing is read after that. -/
  | truncated {offset : Nat} {op : Opcode} {bytes : List UInt8} :
      readOperands op.widths bytes = none → Lines offset (op.toByte :: bytes) [.truncated offset op]
  | instruction {offset : Nat} {i : Instr} {rest : List UInt8} {lines : List Line} :
      i.Fits → Lines (offset + i.size) rest lines →
      Lines offset (i.bytes ++ rest) (.instruction offset i.op i.operands :: lines)

/-- **The reader reads line by line.** -/
theorem lines_decodeFrom (offset : Nat) (bytes : List UInt8) :
    Lines offset bytes (decodeFrom offset 0 bytes) := by
  -- by the number of bytes left, since an instruction takes several at once
  induction hn : bytes.length using Nat.strongRecOn generalizing offset bytes with
  | ind n ih =>
      cases bytes with
      | nil => exact .done offset
      | cons b bytes =>
          subst hn
          cases hop : Opcode.ofByte? b with
          | none =>
              simp only [decodeFrom, hop]
              exact .undefined hop (ih _ (Nat.lt_succ_self _) _ _ rfl)
          | some op =>
              have hb := Opcode.toByte_of_ofByte? hop
              subst hb
              cases hr : readOperands op.widths bytes with
              | none =>
                  simp only [decodeFrom, hop, hr]
                  exact .truncated hr
              | some operands =>
                  obtain ⟨hfit, rest, rfl⟩ := readOperands_eq_some hr
                  have hi : Instr.Fits ⟨op, operands⟩ := hfit
                  have hrest : rest.length < (Instr.bytes ⟨op, operands⟩ ++ rest).length := by
                    rw [List.length_append, hi.length_bytes, Instr.size]
                    omega
                  have hline :=
                    Lines.instruction hi (ih _ hrest (offset + Instr.size ⟨op, operands⟩) rest rfl)
                  rw [← decodeFrom_instr hi] at hline
                  exact hline

/-- The bytes that a line of a stream stands for: an instruction as it is written, a byte that is no
opcode, or all that is left where an instruction is cut off. -/
def Line.bytesIn (stream : List UInt8) : Line → List UInt8
  | .instruction _ op operands => encode op operands
  | .undefined _ byte => [byte]
  | .truncated offset _ => stream.drop offset

/-- Nothing of a stream is lost. -/
lemma Lines.flatMap_bytesIn {offset : Nat} {bytes stream : List UInt8} {lines : List Line}
    (h : Lines offset bytes lines) (hs : stream.drop offset = bytes) :
    lines.flatMap (Line.bytesIn stream) = bytes := by
  induction h with
  | done => rfl
  | undefined _ _ ih =>
      rw [List.flatMap_cons, ih (by rw [← List.drop_drop, hs]; rfl)]
      rfl
  | truncated _ => rw [List.flatMap_singleton, Line.bytesIn, hs]
  | @instruction offset i rest lines hi _ ih =>
      rw [List.flatMap_cons, ih (by rw [← List.drop_drop, hs, ← hi.length_bytes, List.drop_left])]
      rfl

/-- The lines come one after the other, none before the offset of the first. -/
lemma Lines.increasing {offset : Nat} {bytes : List UInt8} {lines : List Line}
    (h : Lines offset bytes lines) :
    (∀ l ∈ lines, offset ≤ l.offset) ∧ lines.Pairwise (fun l l' => l.offset < l'.offset) := by
  induction h with
  | done => simp
  | undefined _ _ ih =>
      obtain ⟨hle, hlt⟩ := ih
      refine ⟨List.forall_mem_cons.mpr
        ⟨Nat.le_refl _, fun l hl => Nat.le_of_succ_le (hle l hl)⟩, ?_⟩
      exact List.pairwise_cons.mpr ⟨hle, hlt⟩
  | truncated _ => simp [Line.offset]
  | @instruction offset i rest lines hi _ ih =>
      obtain ⟨hle, hlt⟩ := ih
      have hpos := i.size_pos
      refine ⟨List.forall_mem_cons.mpr ⟨Nat.le_refl _, fun l hl => ?_⟩,
        List.pairwise_cons.mpr ⟨fun l hl => ?_, hlt⟩⟩
      · exact Nat.le_trans (Nat.le_add_right _ _) (hle l hl)
      · exact Nat.lt_of_lt_of_le (Nat.lt_add_of_pos_right hpos) (hle l hl)

end Instruction

/-! ## Instructions at their offsets -/

lemma linesFrom_eq_mapIdx (pos : Nat) (is : List Instr) :
    linesFrom pos is = is.mapIdx fun k i =>
      .instruction (pos + extent (is.take k)) i.op i.operands := by
  induction is generalizing pos with
  | nil => rfl
  | cons i is ih =>
      rw [linesFrom, ih, List.mapIdx_cons]
      simp [Nat.add_assoc]

namespace Instruction

/-- **Streams are written and read exactly.**  Instructions that fit are read as they were written,
each at the offset where those before it end.  Any bytes are read as lines at increasing offsets,
which stand for exactly these bytes.  And operands are read back as far as they fit, so unchanged
exactly if they do. -/
theorem streams_exact :
    (∀ is : List Instr, (∀ i ∈ is, i.Fits) →
      decode (bytesOf is) =
        is.mapIdx fun k i => .instruction (bytesOf (is.take k)).length i.op i.operands) ∧
    (∀ bytes : List UInt8,
      (decode bytes).Pairwise (fun l l' => l.offset < l'.offset) ∧
        (decode bytes).flatMap (Line.bytesIn bytes) = bytes) ∧
    (∀ (op : Opcode) (operands : List Nat), op.widths.length ≤ operands.length →
      readOperands op.widths (encode op operands).tail =
        some (List.zipWith (fun w n => n % Nat.pow 256 w.bytes) op.widths operands)) ∧
    ∀ (w : Width) (n : Nat), n % Nat.pow 256 w.bytes = n ↔ w.fits n = true := by
  refine ⟨fun is h => ?_, fun bytes => ?_, fun op operands h => ?_, Width.mod_eq_iff_fits⟩
  · have hlen : ∀ k, (bytesOf (is.take k)).length = extent (is.take k) :=
      fun k => length_bytesOf fun i hi => h i (List.mem_of_mem_take hi)
    simp only [decode_bytesOf h, linesFrom_eq_mapIdx, hlen, Nat.zero_add]
  · have hlines := lines_decodeFrom 0 bytes
    exact ⟨hlines.increasing.2, hlines.flatMap_bytesIn rfl⟩
  · simp only [← Width.bound_eq_pow]
    simpa [encode] using Instr.readOperands_encode_mod [] h

/-- Instructions of each form with the greatest operands that fit, then operands that do not fit. -/
theorem greatest_operands_exact :
    let is : List Instr := [⟨.closure, [65535, 255]⟩, ⟨.pop, []⟩, ⟨.jump, [65535]⟩, ⟨.call, [255]⟩]
    (∀ i ∈ is, i.Fits) ∧
      decode (bytesOf is) =
        [.instruction 0 .closure [65535, 255], .instruction 4 .pop [], .instruction 5 .jump [65535],
          .instruction 8 .call [255]] ∧
      readOperands Opcode.closure.widths (encode .closure [65536, 511]).tail = some [0, 255] := by
  intro is
  have h : ∀ i ∈ is, i.Fits := by
    simp [is, Instr.Fits, Opcode.widths, Width.bound]
  exact ⟨h, streams_exact.1 is h, streams_exact.2.2.1 .closure [65536, 511] (by decide)⟩

end Instruction

end Marmoset
