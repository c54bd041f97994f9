import ScriptEngine.Bytecode.Chunk
set_option autoImplicit false

/-!
# Bytecode: decoding

An instruction is what a chunk holds at an offset: an opcode, its operand bytes
and the line of the opcode byte.  Only the instruction that makes a closure
varies in length: a pair of bytes follows for each cell that the function
captures.  Decoding refuses an unknown opcode, an instruction that the code or
the line table is too short for, and a closure of what is no function.

`size_pos` says that an instruction takes up room, so that decoding a chunk from
its start reaches the end.
-/

namespace ScriptEngine

/-! ## Instructions -/

/-- A decoded instruction. -/
structure Instruction where
  offset : Nat
  line : Nat
  op : Opcode
  operands : List UInt8
  deriving DecidableEq, Repr, Inhabited

/-- Where a closure takes a cell from. -/
structure Capture where
  /-- From a slot of the function around it, and not from that function's own
  cells. -/
  isLocal : Bool
  index : Nat
  deriving DecidableEq, Repr, Inhabited

namespace Instruction

/-- How many bytes the instruction takes. -/
def size (i : Instruction) : Nat := i.operands.length + 1

/-- The constant that the instruction names. -/
def constant? (i : Instruction) : Option Nat :=
  if i.op.namesConstant then i.operands.head?.map UInt8.toNat else none

/-- Reads capture pairs.  A byte that is left over makes no capture. -/
def capturesOf : List UInt8 → List Capture
  | isLocal :: index :: rest => ⟨isLocal == 1, index.toNat⟩ :: capturesOf rest
  | _ => []

/-- What the instruction captures. -/
def captures (i : Instruction) : List Capture :=
  match i.op with
  | .closure => capturesOf i.operands.tail
  | _ => []

/-- Where the instruction may jump to.  A loop may not leave the code at its
front. -/
def target? (i : Instruction) : Option Nat :=
  match i.op, i.operands with
  | .jump, distance :: _ | .jumpIfFalse, distance :: _ =>
      some (i.offset + i.size + distance.toNat)
  | .loop, distance :: _ =>
      if distance.toNat ≤ i.offset + i.size then
        some (i.offset + i.size - distance.toNat)
      else none
  | _, _ => none

theorem size_pos (i : Instruction) : 0 < i.size := Nat.succ_pos _

end Instruction

/-! ## Decoding -/

/-- Why there is no instruction at an offset. -/
inductive DecodeError where
  | unknownOpcode (byte : UInt8) (offset : Nat)
  | truncated (offset : Nat)
  | notAFunction (offset : Nat)
  deriving DecidableEq, Repr, Inhabited

namespace DecodeError

/-- The message for an opcode byte that stands for nothing. -/
def unknownOpcodeText (byte : UInt8) (offset : Nat) : String :=
  "Unknown opcode 0x" ++ Text.hexByte byte ++ " at offset " ++
    Text.decimal offset ++ "."

/-- The error in words. -/
def message : DecodeError → String
  | unknownOpcode byte offset => unknownOpcodeText byte offset
  | truncated offset =>
      "Truncated instruction at offset " ++ Text.decimal offset ++ "."
  | notAFunction offset =>
      "Closure at offset " ++ Text.decimal offset ++
        " does not reference a function constant."

end DecodeError

namespace Chunk

/-- The `count` bytes after `offset`, if there are that many. -/
def operands? (c : Chunk Value) (offset count : Nat) : Option (List UInt8) :=
  if offset + count < c.code.size then
    some (c.code.extract (offset + 1) (offset + 1 + count)).toList
  else none

/-- How many operand bytes the instruction at `offset` has.  The bytes of a closure's
captures are counted in a word of 64 bits. -/
def operandBytes (c : Chunk Value) (offset : Nat) (op : Opcode) :
    Except DecodeError Nat :=
  match op with
  | .closure =>
      match c.code[offset + 1]? with
      | none => .error (.truncated offset)
      | some index =>
          match c.constants[index.toNat]? with
          | some (.function f) => .ok (1 + 2 * f.captureCount % UInt64.size)
          | _ => .error (.notAFunction offset)
  | op => .ok op.operandBytes

/-- The instruction at `offset`. -/
def decode (c : Chunk Value) (offset : Nat) : Except DecodeError Instruction :=
  match c.code[offset]?, c.lines[offset]? with
  | some byte, some line =>
      match Opcode.ofByte? byte with
      | none => .error (.unknownOpcode byte offset)
      | some op =>
          match c.operandBytes offset op with
          | .error e => .error e
          | .ok count =>
              match c.operands? offset count with
              | none => .error (.truncated offset)
              | some operands => .ok ⟨offset, line, op, operands⟩
  | _, _ => .error (.truncated offset)

/-- The instructions from `offset` to the end of the code. -/
def instructionsFrom (c : Chunk Value) (offset : Nat) :
    Except DecodeError (List Instruction) :=
  if _h : offset < c.code.size then
    match c.decode offset with
    | .error e => .error e
    | .ok i =>
        match c.instructionsFrom (offset + i.size) with
        | .error e => .error e
        | .ok later => .ok (i :: later)
  else .ok []
termination_by c.code.size - offset
decreasing_by
  have := i.size_pos
  omega

/-- All instructions of the chunk. -/
def instructions (c : Chunk Value) : Except DecodeError (List Instruction) :=
  c.instructionsFrom 0

end Chunk

end ScriptEngine
