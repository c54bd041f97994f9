set_option autoImplicit false

/-!
# Bytecode: opcodes

An instruction is one opcode byte followed by operand bytes.  The opcodes are
numbered in the order in which they are listed here, and that order is also the
order in which tables of opcodes are printed.

`ofByte_toByte` and `toByte_of_ofByte` say that the numbering loses nothing:
bytes below the number of opcodes and opcodes are the same thing.
-/

namespace ScriptEngine

/-- The operations of the machine. -/
inductive Opcode where
  /-- Push a constant of the pool. -/
  | constant
  | nil | true | false
  | pop
  | getLocal | setLocal
  | getGlobal | defineGlobal | setGlobal
  /-- Read and write the content of a captured cell. -/
  | getUpvalue | setUpvalue
  /-- Pop a captured slot, so that later captures of it make a new cell. -/
  | closeUpvalue
  | equal | greater | less
  | add | subtract | multiply | divide
  | not | negate
  /-- Forward, always and on a false condition. -/
  | jump | jumpIfFalse
  /-- Backward. -/
  | loop
  | call
  /-- Make a closure of a function constant and the captures listed after it. -/
  | closure
  | return
  deriving DecidableEq, Repr, Inhabited

namespace Opcode

/-- The opcodes in the order of their bytes. -/
def all : Array Opcode :=
  #[constant, nil, true, false, pop, getLocal, setLocal, getGlobal, defineGlobal,
    setGlobal, getUpvalue, setUpvalue, closeUpvalue, equal, greater, less, add,
    subtract, multiply, divide, not, negate, jump, jumpIfFalse, loop, call,
    closure, «return»]

/-- The byte of an opcode: its place in the order. -/
def toByte (op : Opcode) : UInt8 := op.ctorIdx.toUInt8

/-- The opcode of a byte. -/
def ofByte? (b : UInt8) : Option Opcode := all[b.toNat]?

/-- The name that listings use. -/
def mnemonic : Opcode → String
  | constant => "CONSTANT" | nil => "NIL" | true => "TRUE" | false => "FALSE"
  | pop => "POP"
  | getLocal => "GET_LOCAL" | setLocal => "SET_LOCAL"
  | getGlobal => "GET_GLOBAL" | defineGlobal => "DEFINE_GLOBAL"
  | setGlobal => "SET_GLOBAL"
  | getUpvalue => "GET_UPVALUE" | setUpvalue => "SET_UPVALUE"
  | closeUpvalue => "CLOSE_UPVALUE"
  | equal => "EQUAL" | greater => "GREATER" | less => "LESS"
  | add => "ADD" | subtract => "SUBTRACT" | multiply => "MULTIPLY"
  | divide => "DIVIDE"
  | not => "NOT" | negate => "NEGATE"
  | jump => "JUMP" | jumpIfFalse => "JUMP_IF_FALSE" | loop => "LOOP"
  | call => "CALL" | closure => "CLOSURE" | «return» => "RETURN"

/-- How many operand bytes every instruction with this opcode has.  The captures
of a closure come on top. -/
def operandBytes : Opcode → Nat
  | constant | getLocal | setLocal | getGlobal | defineGlobal | setGlobal
  | getUpvalue | setUpvalue | jump | jumpIfFalse | loop | call | closure => 1
  | nil | true | false | pop | closeUpvalue | equal | greater | less | add
  | subtract | multiply | divide | not | negate | «return» => 0

/-- The first operand is an index into the constant pool. -/
def namesConstant : Opcode → Bool
  | constant | getGlobal | defineGlobal | setGlobal | closure => Bool.true
  | _ => Bool.false

theorem ofByte_toByte (op : Opcode) : ofByte? op.toByte = some op := by
  cases op <;> rfl

/-- Each place in the order holds the opcode whose byte is that place. -/
theorem map_toByte_all :
    ∀ i : Fin 28, (all[i.val]?).map (fun op => op.toByte.toNat) = some i.val := by
  decide

theorem toByte_of_ofByte {b : UInt8} {op : Opcode} (h : ofByte? b = some op) :
    op.toByte = b := by
  obtain ⟨hlt, -⟩ := Array.getElem?_eq_some_iff.mp h
  have key := map_toByte_all ⟨b.toNat, hlt⟩
  unfold ofByte? at h
  rw [h] at key
  exact UInt8.toNat_inj.mp (Option.some.inj key)

end Opcode

end ScriptEngine
