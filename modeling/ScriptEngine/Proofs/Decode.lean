import ScriptEngine.Proofs.Draft
set_option autoImplicit false

/-!
# Decoding code that has effects

An instruction whose effect is known is decoded to just the bytes that it consists
of (`decode_eq`).  The instructions of a chunk are decoded one behind the other, so
that each of them is what its own offset decodes to (`decode_of_mem`).
-/

namespace ScriptEngine

namespace Chunk

/-- The bytes behind an offset. -/
theorem Holds.operands {c : Chunk Value} {o : Nat} {byte : UInt8} {operands : List UInt8}
    (h : c.Holds o (byte :: operands)) : c.operands? o operands.length = some operands := by
  have hlt : o + operands.length < c.code.size := h.lt_size (i := operands.length) (by simp)
  unfold operands?
  rw [if_pos hlt]
  refine congrArg some (List.ext_getElem ?_ fun i hi hi' => ?_)
  · rw [Array.length_toList, Array.size_extract]
    omega
  · have hbyte := h (i + 1) operands[i] (by simp)
    rw [Array.getElem_toList, Array.getElem_extract]
    have hindex : o + (i + 1) = o + 1 + i := by omega
    rw [hindex, Array.getElem?_eq_some_iff] at hbyte
    exact hbyte.2

theorem operandBytes_of_ne {c : Chunk Value} {o n : Nat} {op : Opcode} (h : op ≠ .closure)
    (hn : op.operandBytes = n) : c.operandBytes o op = .ok n := by
  unfold operandBytes
  split
  · exact absurd rfl h
  · exact congrArg Except.ok hn

theorem operandBytes_closure {c : Chunk Value} {o : Nat} {k : UInt8} {f : Function Value}
    (hbyte : c.code[o + 1]? = some k) (hk : c.constants[k.toNat]? = some (.function f)) :
    c.operandBytes o .closure = .ok (1 + 2 * f.captureCount % UInt64.size) := by
  unfold operandBytes
  dsimp only
  rw [hbyte]
  dsimp only
  rw [hk]

/-- A closure has two bytes for each of its captures. -/
theorem operandBytes_of_pairs {c : Chunk Value} {o : Nat} {k : UInt8} {pairs : List UInt8}
    {f : Function Value} (hbyte : c.code[o + 1]? = some k)
    (hk : c.constants[k.toNat]? = some (.function f)) (hsize : pairs.length = 2 * f.captureCount)
    (hword : pairs.length < UInt64.size) : c.operandBytes o .closure = .ok (k :: pairs).length := by
  rw [operandBytes_closure hbyte hk, ← hsize, Nat.mod_eq_of_lt hword, List.length_cons,
    Nat.add_comm]

/-- How many bytes an instruction has follows from its effect. -/
theorem operandBytes_eq {c : Chunk Value} {o captureCount next : Nat} {op : Opcode}
    {operands : List UInt8} {Γ : Layout} {after : List (Nat × Layout)}
    (h : c.Holds o (op.toByte :: operands))
    (heff : Effect c.constants captureCount next op operands Γ after) :
    c.operandBytes o op = .ok operands.length := by
  cases heff with
  | closure hk hsize hword => exact operandBytes_of_pairs (h 1 _ rfl) hk hsize hword
  | literal hop => cases op <;> first | rfl | cases hop
  | binary hop => cases op <;> first | rfl | cases hop
  | unary hop => cases op <;> first | rfl | cases hop
  | _ => rfl

/-- An instruction whose bytes are all there is decoded to these bytes, with the line of the
first of them. -/
theorem decode_of_line {c : Chunk Value} {o line : Nat} {op : Opcode} {operands : List UInt8}
    (hline : c.lines[o]? = some line) (h : c.Holds o (op.toByte :: operands))
    (hcount : c.operandBytes o op = .ok operands.length) :
    c.decode o = .ok ⟨o, line, op, operands⟩ := by
  have hcode : c.code[o]? = some op.toByte := h 0 _ rfl
  unfold decode
  rw [hcode, hline]
  dsimp only
  rw [Opcode.ofByte_toByte]
  dsimp only
  rw [hcount]
  dsimp only
  rw [h.operands]

theorem decode_of_holds {c : Chunk Value} {o : Nat} {op : Opcode} {operands : List UInt8}
    (hlines : c.code.size ≤ c.lines.size) (h : c.Holds o (op.toByte :: operands))
    (hcount : c.operandBytes o op = .ok operands.length) :
    ∃ line, c.decode o = .ok ⟨o, line, op, operands⟩ := by
  have hcode : c.code[o]? = some op.toByte := h 0 _ rfl
  have hlt : o < c.lines.size :=
    Nat.lt_of_lt_of_le (Array.getElem?_eq_some_iff.mp hcode).1 hlines
  exact ⟨c.lines[o], decode_of_line (Array.getElem?_eq_getElem hlt) h hcount⟩

theorem decode_eq {c : Chunk Value} {o captureCount next : Nat} {op : Opcode}
    {operands : List UInt8} {Γ : Layout} {after : List (Nat × Layout)}
    (hlines : c.lines.size = c.code.size) (h : c.Holds o (op.toByte :: operands))
    (heff : Effect c.constants captureCount next op operands Γ after) :
    ∃ line, c.decode o = .ok ⟨o, line, op, operands⟩ :=
  decode_of_holds (Nat.le_of_eq hlines.symm) h (operandBytes_eq h heff)

/-- What is decoded are the bytes that are there, with the line of the first of them. -/
theorem exists_of_decode {c : Chunk Value} {o : Nat} {i : Instruction} (h : c.decode o = .ok i) :
    c.code[o]? = some i.op.toByte ∧ c.lines[o]? = some i.line ∧
      c.operandBytes o i.op = .ok i.operands.length ∧ i.offset = o := by
  unfold decode at h
  split at h
  · next byte line hbyte hline =>
    split at h
    · cases h
    · next op hop =>
      split at h
      · cases h
      · next count hcount =>
        split at h
        · cases h
        · next operands hoperands =>
          cases h
          refine ⟨hbyte.trans (congrArg some (Opcode.toByte_of_ofByte hop).symm), hline, ?_, rfl⟩
          rw [hcount]
          unfold operands? at hoperands
          split at hoperands
          · cases hoperands
            rw [Array.length_toList, Array.size_extract]
            congr 1
            omega
          · cases hoperands
  · cases h

/-- The instructions from an offset on are the one there and those behind it. -/
theorem instructionsFrom_eq_ok {c : Chunk Value} {o : Nat} {is : List Instruction}
    (h : c.instructionsFrom o = .ok is) (ho : o < c.code.size) :
    ∃ i later, c.decode o = .ok i ∧ c.instructionsFrom (o + i.size) = .ok later ∧
      is = i :: later := by
  unfold instructionsFrom at h
  rw [dif_pos ho] at h
  split at h
  · cases h
  · next i hi =>
    split at h
    · cases h
    · next later hlater => exact ⟨i, later, hi, hlater, (Except.ok.inj h).symm⟩

theorem instructionsFrom_of_le {c : Chunk Value} {o : Nat} (h : c.code.size ≤ o) :
    c.instructionsFrom o = .ok [] := by
  unfold instructionsFrom
  rw [dif_neg (Nat.not_lt.mpr h)]

theorem offset_of_decode {c : Chunk Value} {o : Nat} {i : Instruction}
    (h : c.decode o = .ok i) : i.offset = o := by
  unfold decode at h
  repeat' split at h
  all_goals cases h
  rfl

/-- What holds of each instruction that is decoded within the code holds of all
instructions. -/
theorem forall_mem_instructionsFrom {c : Chunk Value} {P : Instruction → Prop}
    (hP : ∀ o i, o < c.code.size → c.decode o = .ok i → P i) {o : Nat} {is : List Instruction}
    (h : c.instructionsFrom o = .ok is) : ∀ i ∈ is, P i := by
  by_cases ho : o < c.code.size
  · obtain ⟨i, later, hi, hlater, rfl⟩ := instructionsFrom_eq_ok h ho
    have := i.size_pos
    exact List.forall_mem_cons.mpr ⟨hP o i ho hi, forall_mem_instructionsFrom hP hlater⟩
  · rw [instructionsFrom_of_le (Nat.not_lt.mp ho)] at h
    cases h
    exact fun i hi => absurd hi List.not_mem_nil
termination_by c.code.size - o

/-- An instruction of the chunk is what its offset decodes to. -/
theorem decode_of_mem {c : Chunk Value} {is : List Instruction} (h : c.instructions = .ok is)
    {i : Instruction} (hi : i ∈ is) : c.decode i.offset = .ok i := by
  refine forall_mem_instructionsFrom (P := fun i => c.decode i.offset = .ok i) ?_ h i hi
  intro o i _ hi
  rwa [offset_of_decode hi]

theorem offset_lt_of_mem {c : Chunk Value} {is : List Instruction} (h : c.instructions = .ok is)
    {i : Instruction} (hi : i ∈ is) : i.offset < c.code.size := by
  refine forall_mem_instructionsFrom (P := fun i => i.offset < c.code.size) ?_ h i hi
  intro o i ho hi
  rwa [offset_of_decode hi]

/-- The instruction behind which the code ends is the last one. -/
theorem getLast_of_mem_instructionsFrom {c : Chunk Value} {o : Nat} {is : List Instruction}
    (h : c.instructionsFrom o = .ok is) {i : Instruction} (hi : i ∈ is)
    (hend : i.offset + i.size = c.code.size) : is.getLast? = some i := by
  by_cases ho : o < c.code.size
  · obtain ⟨first, later, hfirst, hlater, rfl⟩ := instructionsFrom_eq_ok h ho
    have hpos := first.size_pos
    rcases List.mem_cons.mp hi with rfl | hi
    · have hoff := offset_of_decode hfirst
      rw [instructionsFrom_of_le (by omega)] at hlater
      cases hlater
      rfl
    · have hlast := getLast_of_mem_instructionsFrom hlater hi hend
      obtain ⟨second, more, rfl⟩ := List.exists_cons_of_ne_nil (List.ne_nil_of_mem hi)
      rwa [List.getLast?_cons_cons]
  · rw [instructionsFrom_of_le (Nat.not_lt.mp ho)] at h
    cases h
    exact absurd hi List.not_mem_nil
termination_by c.code.size - o

theorem getLast_of_mem {c : Chunk Value} {is : List Instruction} (h : c.instructions = .ok is)
    {i : Instruction} (hi : i ∈ is) (hend : i.offset + i.size = c.code.size) :
    is.getLast? = some i :=
  getLast_of_mem_instructionsFrom h hi hend

end Chunk

theorem Instruction.captures_of_ne (i : Instruction) (h : i.op ≠ .closure) : i.captures = [] := by
  unfold captures
  split
  · next hop => exact absurd hop h
  · rfl

end ScriptEngine
