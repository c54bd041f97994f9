import Mathlib
import ScriptEngine.Proofs.Compile.Rows
set_option autoImplicit false

/-!
# Bytecode: encoding and decoding

Instructions that are written one behind the other are decoded to just these instructions, and
the instructions that any code decodes to are all that is in it (`encoding_round_trips`).

How long an instruction is can depend on the pool, so that one length read wrong would shift
everything behind it.  What keeps the two sides in step is that an instruction that was decoded
is in the code with all its bytes (`drop_of_decode`), and that the next one is looked for right
behind it (`AreRunning`).
-/

namespace ScriptEngine

open Compile

/-! ## Writing instructions -/

namespace Chunk

variable {c : Chunk Value} {ws : List Written} {w : Written}

/-- The chunk with bytes at its end that all have one line. -/
def appendAll (c : Chunk Value) (bytes : List UInt8) (line : Nat) : Chunk Value :=
  bytes.foldl (fun c byte => c.append byte line) c

/-- The chunk with an instruction at its end: the opcode, and then its operands. -/
def appendInstruction (c : Chunk Value) (w : Written) : Chunk Value :=
  (c.appendOp w.op w.line).appendAll w.operands w.line

/-- A chunk without code that has these constants. -/
def ofConstants (pool : List Value) : Chunk Value :=
  pool.foldl (fun c v => (c.pushConstant v).2) .empty

theorem appendAll_eq (c : Chunk Value) (bytes : List UInt8) (line : Nat) :
    (c.appendAll bytes line).code.toList = c.code.toList ++ bytes ∧
      (c.appendAll bytes line).lines.toList =
        c.lines.toList ++ List.replicate bytes.length line ∧
      (c.appendAll bytes line).constants = c.constants := by
  induction bytes generalizing c with
  | nil => simp [appendAll]
  | cons byte bytes ih =>
    obtain ⟨hcode, hlines, hconstants⟩ := ih (c.append byte line)
    refine ⟨hcode.trans ?_, hlines.trans ?_, hconstants⟩
    · simp [append]
    · simp [append, List.replicate_succ]

theorem ofConstants_eq (pool : List Value) :
    (ofConstants pool).code = #[] ∧ (ofConstants pool).lines = #[] ∧
      (ofConstants pool).constants = pool.toArray := by
  have hpush : ∀ (pool : List Value) (c : Chunk Value),
      pool.foldl (fun c v => (c.pushConstant v).2) c =
        { c with constants := c.constants ++ pool.toArray } := by
    intro pool
    induction pool with
    | nil => simp
    | cons v pool ih =>
      intro c
      rw [List.foldl_cons, ih]
      simp [pushConstant]
  unfold ofConstants
  rw [hpush]
  simp [empty]

/-- A whole instruction behind a row makes a longer row. -/
theorem IsRow.appendInstruction (h : c.IsRow ws) (hw : w.IsWhole c.constants) :
    (c.appendInstruction w).IsRow (ws ++ [w]) := by
  obtain ⟨hcode, hlines, hconstants⟩ := (c.appendOp w.op w.line).appendAll_eq w.operands w.line
  refine ⟨hcode.trans ?_, hlines.trans ?_, fun v hv => ?_⟩
  · simp [appendOp, append, h.code, Written.bytes]
  · simp [appendOp, append, h.lines, Written.lines, Written.bytes, List.replicate_succ]
  · show v.IsWhole ((c.appendOp w.op w.line).appendAll w.operands w.line).constants
    rw [hconstants]
    rcases List.mem_append.mp hv with hold | hnew
    · exact h.whole v hold
    · rwa [List.mem_singleton.mp hnew]

theorem IsRow.appendInstructions {vs : List Written} (h : c.IsRow vs)
    (hws : ∀ w ∈ ws, w.IsWhole c.constants) :
    (ws.foldl Chunk.appendInstruction c).IsRow (vs ++ ws) := by
  induction ws generalizing c vs with
  | nil => simpa using h
  | cons w ws ih =>
    obtain ⟨hw, hws⟩ := List.forall_mem_cons.mp hws
    have hconstants : (c.appendInstruction w).constants = c.constants :=
      ((c.appendOp w.op w.line).appendAll_eq w.operands w.line).2.2
    have hrow := ih (h.appendInstruction hw) (by rwa [hconstants])
    rwa [List.append_assoc] at hrow

/-- Whole instructions make a row of any pool. -/
theorem isRow_ofConstants {pool : List Value} (h : ∀ w ∈ ws, w.IsWhole pool.toArray) :
    (ws.foldl Chunk.appendInstruction (ofConstants pool)).IsRow ws := by
  obtain ⟨hcode, hlines, hconstants⟩ := ofConstants_eq pool
  have hempty : (ofConstants pool).IsRow [] := by
    refine ⟨?_, ?_, nofun⟩
    · rw [hcode]
      rfl
    · rw [hlines]
      rfl
  exact hempty.appendInstructions (by rwa [hconstants])

end Chunk

/-! ## Decoded instructions -/

namespace Instruction

/-- The bytes of the instruction. -/
def bytes (i : Instruction) : List UInt8 := i.op.toByte :: i.operands

/-- The instruction as it is written, wherever it stands. -/
def written (i : Instruction) : Written := ⟨i.op, i.operands, i.line⟩

/-- Each instruction stands right behind the one before it, and the first one at `start`. -/
def AreRunning (start : Nat) (is : List Instruction) : Prop :=
  ∀ (k : Nat) (i : Instruction), is[k]? = some i →
    i.offset = start + ((is.take k).map size).sum

theorem AreRunning.cons {start : Nat} {i : Instruction} {is : List Instruction}
    (hi : i.offset = start) (h : AreRunning (start + i.size) is) : AreRunning start (i :: is) := by
  intro k j hj
  cases k with
  | zero =>
    cases hj
    simpa using hi
  | succ k =>
    rw [h k j hj, List.take_succ_cons, List.map_cons, List.sum_cons, Nat.add_assoc]

/-- Instructions that stand one behind the other go up. -/
theorem AreRunning.pairwise {start : Nat} {is : List Instruction} (h : AreRunning start is) :
    (is.map offset).Pairwise (· < ·) := by
  rw [List.pairwise_map, List.pairwise_iff_getElem]
  intro j k hj hk hjk
  rw [h j _ (List.getElem?_eq_getElem hj), h k _ (List.getElem?_eq_getElem hk)]
  have hprefix : is.take (j + 1) <+: is.take k := List.take_prefix_take_left (by omega)
  obtain ⟨between, hbetween⟩ := hprefix
  have hpos := is[j].size_pos
  rw [← hbetween, List.take_succ_eq_append_getElem hj]
  simp only [List.map_append, List.sum_append, List.map_cons, List.map_nil, List.sum_cons,
    List.sum_nil]
  omega

end Instruction

namespace Chunk

variable {c : Chunk Value} {o : Nat} {i : Instruction} {is : List Instruction}

theorem eq_of_operands {n : Nat} {operands : List UInt8} (h : c.operands? o n = some operands) :
    operands = (c.code.toList.drop (o + 1)).take n := by
  unfold operands? at h
  split at h
  · cases h
    rw [Array.toList_extract, List.extract_eq_take_drop, Nat.add_sub_cancel_left]
  · cases h

theorem operands_of_decode (h : c.decode o = .ok i) :
    c.operands? o i.operands.length = some i.operands := by
  obtain ⟨hcode, hline, hcount, -⟩ := exists_of_decode h
  unfold decode at h
  rw [hcode, hline] at h
  dsimp only at h
  rw [Opcode.ofByte_toByte] at h
  dsimp only at h
  rw [hcount] at h
  dsimp only at h
  split at h
  · cases h
  · next operands hoperands =>
    have hsame : operands = i.operands := congrArg Instruction.operands (Except.ok.inj h)
    rw [hoperands, hsame]

/-- An instruction that was decoded is in the code with all its bytes. -/
theorem drop_of_decode (h : c.decode o = .ok i) :
    c.code.toList.drop o = i.bytes ++ c.code.toList.drop (o + i.size) := by
  obtain ⟨hlt, hbyte⟩ := Array.getElem?_eq_some_iff.mp (exists_of_decode h).1
  have hoperands := eq_of_operands (operands_of_decode h)
  rw [List.drop_eq_getElem_cons (by simpa using hlt), Array.getElem_toList, hbyte]
  refine congrArg (i.op.toByte :: ·) ?_
  have hsize : o + i.size = o + 1 + i.operands.length := by
    unfold Instruction.size
    omega
  calc c.code.toList.drop (o + 1)
      = (c.code.toList.drop (o + 1)).take i.operands.length ++
          (c.code.toList.drop (o + 1)).drop i.operands.length := (List.take_append_drop ..).symm
    _ = i.operands ++ c.code.toList.drop (o + i.size) := by rw [← hoperands, List.drop_drop, hsize]

theorem map_written_located (o : Nat) (ws : List Written) :
    (located o ws).map Instruction.written = ws := by
  induction ws generalizing o with
  | nil => rfl
  | cons w ws ih =>
    rw [located, List.map_cons, ih]
    rfl

/-- The instructions from an offset on are all of the code from there, one behind the other. -/
theorem instructionsFrom_covers {c : Chunk Value} {o : Nat} {is : List Instruction}
    (h : c.instructionsFrom o = .ok is) :
    is.flatMap Instruction.bytes = c.code.toList.drop o ∧ Instruction.AreRunning o is := by
  by_cases ho : o < c.code.size
  · obtain ⟨i, later, hi, hlater, rfl⟩ := instructionsFrom_eq_ok h ho
    have hpos := i.size_pos
    obtain ⟨hbytes, hrunning⟩ := instructionsFrom_covers hlater
    refine ⟨?_, hrunning.cons (offset_of_decode hi)⟩
    rw [List.flatMap_cons, hbytes, drop_of_decode hi]
  · rw [instructionsFrom_of_le (Nat.not_lt.mp ho)] at h
    cases h
    refine ⟨?_, nofun⟩
    rw [List.drop_eq_nil_of_le (by simpa using ho)]
    rfl
termination_by c.code.size - o

end Chunk

/-! ## Both ways -/

/-- Whole instructions of any pool, written one behind the other, are decoded to the same
instructions, each right behind the one before.  Any code that can be decoded consists of the
bytes of its instructions, which go up from the front. -/
theorem encoding_round_trips :
    (∀ (pool : List Value) (ws : List Written), (∀ w ∈ ws, w.IsWhole pool.toArray) →
      ∃ is, (ws.foldl Chunk.appendInstruction (Chunk.ofConstants pool)).instructions = .ok is ∧
        is.map Instruction.written = ws ∧ Instruction.AreRunning 0 is) ∧
    ∀ (c : Chunk Value) (is : List Instruction), c.instructions = .ok is →
      is.flatMap Instruction.bytes = c.code.toList ∧
        (is.map Instruction.offset).Pairwise (· < ·) ∧
        ∀ i, is.head? = some i → i.offset = 0 := by
  refine ⟨fun pool ws hws => ?_, fun c is his => ?_⟩
  · have hdecoded := Chunk.instructions_of_isRow (Chunk.isRow_ofConstants hws)
    refine ⟨located 0 ws, hdecoded, Chunk.map_written_located 0 ws, ?_⟩
    exact (Chunk.instructionsFrom_covers hdecoded).2
  · obtain ⟨hbytes, hrunning⟩ := Chunk.instructionsFrom_covers his
    refine ⟨hbytes, hrunning.pairwise, fun i hi => ?_⟩
    rw [List.head?_eq_getElem?] at hi
    simpa using hrunning 0 i hi

/-- A function that captures two cells, and a string. -/
def counterPool : List Value := [.string "total", .function ⟨0, some "count", 1, 2, .empty⟩]

/-- A closure of that function is made, between a shorter instruction and a single byte. -/
def counterRow : List Written :=
  [⟨.constant, [0], 1⟩, ⟨.closure, [1, 1, 0, 0, 3], 2⟩, ⟨.return, [], 4⟩]

theorem isWhole_counterRow : ∀ w ∈ counterRow, w.IsWhole counterPool.toArray := by
  intro w hw
  simp only [counterRow, List.mem_cons, List.not_mem_nil, or_false] at hw
  rcases hw with rfl | rfl | rfl
  · rfl
  · exact ⟨1, [1, 0, 0, 3], ⟨0, some "count", 1, 2, .empty⟩, rfl, rfl, rfl, by decide⟩
  · rfl

/-- The closure keeps its four bytes, and what is behind it its place. -/
theorem encoding_round_trips_counter :
    ∃ is, (counterRow.foldl Chunk.appendInstruction (.ofConstants counterPool)).instructions =
        .ok is ∧ is.map Instruction.written = counterRow ∧
      is.flatMap Instruction.bytes =
        (counterRow.foldl Chunk.appendInstruction (.ofConstants counterPool)).code.toList ∧
      is.length = 3 := by
  obtain ⟨is, his, hws, -⟩ := encoding_round_trips.1 counterPool counterRow isWhole_counterRow
  have hlength : is.length = 3 := by
    have h := congrArg List.length hws
    rwa [List.length_map] at h
  exact ⟨is, his, hws, (encoding_round_trips.2 _ is his).1, hlength⟩

end ScriptEngine
