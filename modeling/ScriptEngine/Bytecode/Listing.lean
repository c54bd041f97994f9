import ScriptEngine.Bytecode.Instruction
set_option autoImplicit false

/-!
# Bytecode: listings

A listing shows a chunk as text, one entry a line: the offset, the line of the
source (a bar when it is the line of the byte before), and the instruction with
its operands and what they refer to.  A byte at which nothing can be decoded
gets an entry of its own with the reason, and the listing goes on behind it, so
that every chunk has a listing.

Each entry carries the number of bytes it covers, which is never zero.
-/

namespace ScriptEngine

/-- A line of a listing, and how many bytes of code it covers. -/
structure ListingEntry where
  text : String
  size : Nat
  size_pos : 0 < size

namespace Chunk

/-! ## Columns -/

/-- The line column: empty but for a bar when the line has not changed since
the byte before.  A byte without a line shows zero. -/
def lineColumn (c : Chunk Value) (offset : Nat) : String :=
  if 0 < offset && c.lines[offset]? == c.lines[offset - 1]? then "   |"
  else Text.decimalColumn 4 (c.lines[offset]?.getD 0)

/-- The written form of a constant. -/
def constantText (c : Chunk Value) (index : Nat) : String :=
  match c.constants[index]? with
  | some value => value.toText
  | none => "<oob>"

/-- The opcode's name and a number, in columns. -/
def operandText (op : Opcode) (operand : Nat) : String :=
  Text.padRight 16 op.mnemonic ++ " " ++ Text.decimalColumn 4 operand

/-- A capture in words. -/
def captureText (capture : Capture) : String :=
  (if capture.isLocal then " (local " else " (upvalue ") ++
    Text.decimal capture.index ++ ")"

/-- An instruction with what its operands refer to. -/
def instructionText (c : Chunk Value) (i : Instruction) : String :=
  let operand := (i.operands.headD 0).toNat
  match i.op with
  | .constant | .getGlobal | .defineGlobal | .setGlobal =>
      operandText i.op operand ++ " '" ++ c.constantText operand ++ "'"
  | .closure =>
      operandText i.op operand ++ " " ++ c.constantText operand ++
        String.join (i.captures.map captureText)
  | .jump | .jumpIfFalse | .loop =>
      operandText i.op i.offset ++ " -> " ++
        Text.decimal (i.target?.getD 0)
  | .getLocal | .setLocal | .getUpvalue | .setUpvalue | .call =>
      operandText i.op operand
  | op => op.mnemonic

/-! ## Entries -/

/-- The entry for the bytes at `offset`. -/
def entryAt (c : Chunk Value) (offset : Nat) : ListingEntry :=
  let margin := Text.decimalZeros 4 offset ++ " " ++ c.lineColumn offset ++ " "
  match c.decode offset with
  | .ok i => ⟨margin ++ c.instructionText i, i.size, i.size_pos⟩
  | .error e => ⟨margin ++ e.message, 1, Nat.one_pos⟩

/-- The entries from `offset` to the end of the code, each with its offset. -/
def entriesFrom (c : Chunk Value) (offset : Nat) : List (Nat × ListingEntry) :=
  if _h : offset < c.code.size then
    let entry := c.entryAt offset
    (offset, entry) :: c.entriesFrom (offset + entry.size)
  else []
termination_by c.code.size - offset
decreasing_by
  have := (c.entryAt offset).size_pos
  omega

/-- The whole chunk under a headline. -/
def listing (c : Chunk Value) (name : String) : String :=
  "=== " ++ name ++ " ===\n" ++
    String.join ((c.entriesFrom 0).map fun e => e.2.text ++ "\n")

end Chunk

/-- The listing of a function's code. -/
def Function.listing (f : Function Value) : String :=
  f.chunk.listing f.title

end ScriptEngine
