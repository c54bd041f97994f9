import ScriptEngine.Proofs.Draft
import ScriptEngine.Machine.Run
set_option autoImplicit false

/-!
# Machine: what each instruction does

One equation for each kind of instruction: where a step leads that finds the
instruction's bytes at its place, and on the stack what the instruction needs.
-/

namespace ScriptEngine

open Machine

variable {World : Type}

/-! ## Operators -/

/-- What a binary operator makes of two values. -/
def Opcode.binary (op : Opcode) (x y : Value) : Except Fault Value :=
  match op, x, y with
  | .equal, x, y => .ok (.boolean (x == y))
  | .greater, .number x, .number y => .ok (.boolean (y < x))
  | .less, .number x, .number y => .ok (.boolean (x < y))
  | .subtract, .number x, .number y => .ok (.number (x - y))
  | .multiply, .number x, .number y => .ok (.number (x * y))
  | .divide, .number x, .number y => .ok (.number (x / y))
  | .add, x, y =>
      match sum? x y with
      | some v => .ok v
      | none => .error .operandsNotAddable
  | _, _, _ => .error .operandsNotNumbers

/-- What a unary operator makes of a value. -/
def Opcode.unary (op : Opcode) (x : Value) : Except Fault Value :=
  match op with
  | .not =>
      match x.truth? with
      | some b => .ok (.boolean !b)
      | none => .error .operandNotTruth
  | _ =>
      match x.number? with
      | some a => .ok (.number (-a))
      | none => .error .operandNotNumber

/-- The value that an opcode always pushes. -/
def Opcode.literal : Opcode → Value
  | .true => .boolean Bool.true
  | .false => .boolean Bool.false
  | _ => .nil

namespace Frame

/-- The frame at another place in its code, with other slots. -/
def goTo (f : Frame) (ip : Nat) (slots : Array Value) : Frame := { f with ip, slots }

theorem fetch_eq {f : Frame} {byte : UInt8} (h : f.chunk.code[f.ip]? = some byte) :
    f.fetch = .ok (byte, f.goTo (f.ip + 1) f.slots) := by
  unfold fetch
  rw [h]
  rfl

theorem fetchConstant_eq {f : Frame} {k : UInt8} {v : Value}
    (h : f.chunk.code[f.ip]? = some k) (hv : f.chunk.constants[k.toNat]? = some v) :
    f.fetchConstant = .ok (v, f.goTo (f.ip + 1) f.slots) := by
  have hv' : (f.goTo (f.ip + 1) f.slots).chunk.constants[k.toNat]? = some v := hv
  unfold fetchConstant
  rw [fetch_eq h]
  show (do
    let value ← (f.goTo (f.ip + 1) f.slots).expect _ _
    return (value, f.goTo (f.ip + 1) f.slots)) = _
  rw [hv']
  rfl

theorem fetchName_eq {f : Frame} {k : UInt8} {name : String}
    (h : f.chunk.code[f.ip]? = some k)
    (hv : f.chunk.constants[k.toNat]? = some (.string name)) :
    f.fetchName = .ok (name, f.goTo (f.ip + 1) f.slots) := by
  unfold fetchName
  rw [fetchConstant_eq h hv]
  rfl

theorem fetchFunction_eq {f : Frame} {k : UInt8} {g : Function Value}
    (h : f.chunk.code[f.ip]? = some k)
    (hv : f.chunk.constants[k.toNat]? = some (.function g)) :
    f.fetchFunction = .ok (g, f.goTo (f.ip + 1) f.slots) := by
  unfold fetchFunction
  rw [fetchConstant_eq h hv]
  rfl

theorem peek_eq {f : Frame} {v : Value} (h : f.slots.back? = some v) : f.peek = .ok v := by
  unfold peek
  rw [h]
  rfl

theorem pop_eq {f : Frame} {v : Value} (h : f.slots.back? = some v) :
    f.pop = .ok (v, f.goTo f.ip f.slots.pop) := by
  unfold pop
  rw [peek_eq h]
  rfl

end Frame

namespace Machine

variable {host : Host World} {m : Machine World} {f : Frame}

theorem fetchOpcode_eq {op : Opcode} (h : f.chunk.code[f.ip]? = some op.toByte) :
    fetchOpcode f = .ok (op, f.goTo (f.ip + 1) f.slots) := by
  unfold fetchOpcode
  rw [Frame.fetch_eq h]
  show (do
    let op ← Frame.expect _ _ (Opcode.ofByte? op.toByte)
    return (op, f.goTo (f.ip + 1) f.slots)) = _
  rw [Opcode.ofByte_toByte]
  rfl

/-- A step carries out the instruction that it finds. -/
theorem step_eq {op : Opcode} (h : f.chunk.code[f.ip]? = some op.toByte) :
    m.step host f = m.carryOut host (f.goTo (f.ip + 1) f.slots) op := by
  unfold step
  rw [fetchOpcode_eq h]

/-- The bytes of an instruction without operands. -/
theorem code_op {op : Opcode} {operands : List UInt8}
    (h : f.chunk.Holds f.ip (op.toByte :: operands)) : f.chunk.code[f.ip]? = some op.toByte :=
  h 0 _ rfl

theorem code_operand {op : Opcode} {byte : UInt8} {more : List UInt8}
    (h : f.chunk.Holds f.ip (op.toByte :: byte :: more)) :
    f.chunk.code[f.ip + 1]? = some byte :=
  h 1 _ rfl

theorem step_literal {op : Opcode} (hop : op.isLiteral = true)
    (h : f.chunk.Holds f.ip [op.toByte]) :
    m.step host f = .running (f.goTo (f.ip + 1) (f.slots.push op.literal)) m := by
  rw [step_eq (code_op h)]
  cases op <;> first | rfl | cases hop

theorem step_constant {k : UInt8} {v : Value}
    (h : f.chunk.Holds f.ip [Opcode.constant.toByte, k])
    (hv : f.chunk.constants[k.toNat]? = some v) :
    m.step host f = .running (f.goTo (f.ip + 2) (f.slots.push v)) m := by
  rw [step_eq (code_op h)]
  have hfetch := Frame.fetchConstant_eq (f := f.goTo (f.ip + 1) f.slots) (code_operand h) hv
  unfold carryOut runLocal
  dsimp only
  rw [hfetch]
  rfl

theorem step_pop {v : Value} (h : f.chunk.Holds f.ip [Opcode.pop.toByte])
    (hv : f.slots.back? = some v) :
    m.step host f = .running (f.goTo (f.ip + 1) f.slots.pop) m := by
  rw [step_eq (code_op h)]
  have hpop := Frame.pop_eq (f := f.goTo (f.ip + 1) f.slots) hv
  unfold carryOut runLocal
  dsimp only
  rw [hpop]
  rfl

theorem step_getLocal {k : UInt8} {v : Value}
    (h : f.chunk.Holds f.ip [Opcode.getLocal.toByte, k])
    (hv : f.slots[k.toNat]? = some v) :
    m.step host f = .running (f.goTo (f.ip + 2) (f.slots.push v)) m := by
  rw [step_eq (code_op h)]
  have hfetch := Frame.fetch_eq (f := f.goTo (f.ip + 1) f.slots) (code_operand h)
  have hslot : (f.goTo (f.ip + 2) f.slots).slot k.toNat = .ok v := by
    show Frame.expect _ _ f.slots[k.toNat]? = _
    rw [hv]
    rfl
  unfold carryOut runLocal
  dsimp only
  rw [hfetch]
  show m.conclude (((do
    let w ← (f.goTo (f.ip + 2) f.slots).slot k.toNat
    return (f.goTo (f.ip + 2) f.slots).push w) : Attempt Frame).map _) = _
  rw [hslot]
  rfl

theorem step_setLocal {k : UInt8} {v : Value}
    (h : f.chunk.Holds f.ip [Opcode.setLocal.toByte, k]) (hk : k.toNat < f.slots.size)
    (hv : f.slots.back? = some v) :
    m.step host f = .running (f.goTo (f.ip + 2) (f.slots.setIfInBounds k.toNat v)) m := by
  rw [step_eq (code_op h)]
  have hfetch := Frame.fetch_eq (f := f.goTo (f.ip + 1) f.slots) (code_operand h)
  have hpeek := Frame.peek_eq (f := f.goTo (f.ip + 2) f.slots) hv
  have hset : (f.goTo (f.ip + 2) f.slots).setSlot k.toNat v =
      .ok (f.goTo (f.ip + 2) (f.slots.setIfInBounds k.toNat v)) := if_pos hk
  unfold carryOut runLocal
  dsimp only
  rw [hfetch]
  show m.conclude (((do
    let w ← (f.goTo (f.ip + 2) f.slots).peek
    (f.goTo (f.ip + 2) f.slots).setSlot k.toNat w) : Attempt Frame).map _) = _
  rw [hpeek]
  show m.conclude (((f.goTo (f.ip + 2) f.slots).setSlot k.toNat v).map _) = _
  rw [hset]
  rfl

/-- Where a step leads that replaces values by the outcome of an operator. -/
def afterOperator (m : Machine World) (f : Frame) (below : Array Value)
    (outcome : Except Fault Value) : Progress World :=
  match outcome with
  | .ok v => .running (f.goTo (f.ip + 1) (below.push v)) m
  | .error fault => .failed ⟨fault, f.ip + 1⟩ m

theorem popTwo_eq {f : Frame} {below : Array Value} {x y : Value}
    (hslots : f.slots = (below.push x).push y) :
    f.popTwo = .ok (x, y, f.goTo f.ip below) := by
  have hy : f.slots.back? = some y := by rw [hslots, Array.back?_push]
  have hx : (f.goTo f.ip (below.push x)).slots.back? = some x := Array.back?_push
  have hpop := Frame.pop_eq hy
  rw [hslots, Array.pop_push] at hpop
  have hpop' := Frame.pop_eq hx
  rw [show (f.goTo f.ip (below.push x)).slots.pop = below from Array.pop_push ..] at hpop'
  unfold Frame.popTwo
  rw [hpop]
  show (f.goTo f.ip (below.push x)).pop >>= (fun p => .ok (p.1, y, p.2)) = _
  rw [hpop']
  rfl

/-- Two numbers, if both values are. -/
def numbers? : Value → Value → Option (Float × Float)
  | .number x, .number y => some (x, y)
  | _, _ => none

theorem popTwoNumbers_eq {f : Frame} {below : Array Value} {x y : Value}
    (hslots : f.slots = (below.push x).push y) :
    f.popTwoNumbers =
      match numbers? x y with
      | some (a, b) => .ok (a, b, f.goTo f.ip below)
      | none => .error ⟨.operandsNotNumbers, f.ip⟩ := by
  unfold Frame.popTwoNumbers
  rw [popTwo_eq hslots]
  cases x <;> cases y <;> rfl

theorem step_binary {op : Opcode} (hop : op.isBinary = true)
    (h : f.chunk.Holds f.ip [op.toByte]) {below : Array Value} {x y : Value}
    (hslots : f.slots = (below.push x).push y) :
    m.step host f = m.afterOperator f below (op.binary x y) := by
  rw [step_eq (code_op h)]
  have hpop := popTwo_eq (f := f.goTo (f.ip + 1) f.slots) hslots
  have hnumbers := popTwoNumbers_eq (f := f.goTo (f.ip + 1) f.slots) hslots
  cases op with
  | equal =>
    show m.conclude ((equality _).map _) = _
    unfold equality
    rw [hpop]
    rfl
  | add =>
    show m.conclude ((add _).map _) = _
    unfold add
    rw [hpop]
    show m.conclude (((do
      return (f.goTo (f.ip + 1) below).push (← (f.goTo (f.ip + 1) below).expect
        .operandsNotAddable (sum? x y))) : Attempt Frame).map _) = _
    have hbinary : Opcode.add.binary x y =
        match sum? x y with
        | some v => .ok v
        | none => .error .operandsNotAddable := by cases x <;> rfl
    rw [hbinary]
    cases sum? x y <;> rfl
  | greater =>
    show m.conclude ((comparison (fun x y => y < x) _).map _) = _
    unfold comparison
    rw [hnumbers]
    cases x <;> cases y <;> rfl
  | less =>
    show m.conclude ((comparison (fun x y => x < y) _).map _) = _
    unfold comparison
    rw [hnumbers]
    cases x <;> cases y <;> rfl
  | subtract | multiply | divide =>
    show m.conclude ((arithmetic _ _).map _) = _
    unfold arithmetic
    rw [hnumbers]
    cases x <;> cases y <;> rfl
  | _ => cases hop

theorem step_unary {op : Opcode} (hop : op.isUnary = true)
    (h : f.chunk.Holds f.ip [op.toByte]) {below : Array Value} {x : Value}
    (hslots : f.slots = below.push x) :
    m.step host f = m.afterOperator f below (op.unary x) := by
  rw [step_eq (code_op h)]
  have hback : (f.goTo (f.ip + 1) f.slots).slots.back? = some x := by
    show f.slots.back? = some x
    rw [hslots, Array.back?_push]
  have hpop := Frame.pop_eq hback
  rw [show (f.goTo (f.ip + 1) f.slots).slots.pop = below by
    show f.slots.pop = below
    rw [hslots, Array.pop_push]] at hpop
  cases op with
  | not =>
    show m.conclude ((negation _).map _) = _
    unfold negation
    rw [hpop]
    cases x <;> rfl
  | negate =>
    show m.conclude ((opposite _).map _) = _
    unfold opposite
    rw [hpop]
    cases x <;> rfl
  | _ => cases hop

/-! ## Variables -/

theorem step_getGlobal {k : UInt8} {name : String}
    (h : f.chunk.Holds f.ip [Opcode.getGlobal.toByte, k])
    (hk : f.chunk.constants[k.toNat]? = some (.string name)) :
    m.step host f =
      match m.globals.get? name with
      | some v => .running (f.goTo (f.ip + 2) (f.slots.push v)) m
      | none => .failed ⟨.undefinedVariable name, f.ip + 2⟩ m := by
  rw [step_eq (code_op h)]
  have hfetch := Frame.fetchName_eq (f := f.goTo (f.ip + 1) f.slots) (code_operand h) hk
  show m.conclude (m.loadGlobal _) = _
  unfold loadGlobal
  rw [hfetch]
  show m.conclude (do
    let value ← (f.goTo (f.ip + 2) f.slots).expect _ (m.globals.get? name)
    return ((f.goTo (f.ip + 2) f.slots).push value, m)) = _
  cases m.globals.get? name <;> rfl

theorem step_defineGlobal {k : UInt8} {name : String} {v : Value}
    (h : f.chunk.Holds f.ip [Opcode.defineGlobal.toByte, k])
    (hk : f.chunk.constants[k.toNat]? = some (.string name))
    (hv : f.slots.back? = some v) :
    m.step host f = .running (f.goTo (f.ip + 2) f.slots.pop)
      { m with globals := m.globals.define name v } := by
  rw [step_eq (code_op h)]
  have hfetch := Frame.fetchName_eq (f := f.goTo (f.ip + 1) f.slots) (code_operand h) hk
  have hpop := Frame.pop_eq (f := f.goTo (f.ip + 2) f.slots) hv
  show m.conclude (m.introduceGlobal _) = _
  unfold introduceGlobal
  rw [hfetch]
  show m.conclude ((f.goTo (f.ip + 2) f.slots).pop >>= fun p =>
    .ok (p.2, { m with globals := m.globals.define name p.1 })) = _
  rw [hpop]
  rfl

theorem step_setGlobal {k : UInt8} {name : String} {v : Value}
    (h : f.chunk.Holds f.ip [Opcode.setGlobal.toByte, k])
    (hk : f.chunk.constants[k.toNat]? = some (.string name))
    (hv : f.slots.back? = some v) :
    m.step host f =
      match m.globals.assign? name v with
      | some globals => .running (f.goTo (f.ip + 2) f.slots) { m with globals }
      | none => .failed ⟨.undefinedVariable name, f.ip + 2⟩ m := by
  rw [step_eq (code_op h)]
  have hfetch := Frame.fetchName_eq (f := f.goTo (f.ip + 1) f.slots) (code_operand h) hk
  have hpeek := Frame.peek_eq (f := f.goTo (f.ip + 2) f.slots) hv
  show m.conclude (m.storeGlobal _) = _
  unfold storeGlobal
  rw [hfetch]
  show m.conclude (do
    let value ← (f.goTo (f.ip + 2) f.slots).peek
    let globals ← (f.goTo (f.ip + 2) f.slots).expect _ (m.globals.assign? name value)
    return (f.goTo (f.ip + 2) f.slots, { m with globals })) = _
  rw [hpeek]
  show m.conclude (do
    let globals ← (f.goTo (f.ip + 2) f.slots).expect _ (m.globals.assign? name v)
    return (f.goTo (f.ip + 2) f.slots, { m with globals })) = _
  cases m.globals.assign? name v <;> rfl

theorem capturedCell_eq {f : Frame} {i : Nat} {c : Cell} (h : f.cells[i]? = some c) :
    f.capturedCell i = .ok c := by
  unfold Frame.capturedCell
  rw [h]
  rfl

theorem step_getUpvalue {k : UInt8} {c : Cell}
    (h : f.chunk.Holds f.ip [Opcode.getUpvalue.toByte, k])
    (hk : f.cells[k.toNat]? = some c) :
    m.step host f = .running (f.goTo (f.ip + 2) (f.slots.push (m.store.read c))) m := by
  rw [step_eq (code_op h)]
  have hfetch := Frame.fetch_eq (f := f.goTo (f.ip + 1) f.slots) (code_operand h)
  have hcell := capturedCell_eq (f := f.goTo (f.ip + 2) f.slots) hk
  show m.conclude (m.loadUpvalue _) = _
  unfold loadUpvalue
  rw [hfetch]
  show m.conclude (do
    let cell ← (f.goTo (f.ip + 2) f.slots).capturedCell k.toNat
    return ((f.goTo (f.ip + 2) f.slots).push (m.store.read cell), m)) = _
  rw [hcell]
  rfl

theorem step_setUpvalue {k : UInt8} {c : Cell} {v : Value}
    (h : f.chunk.Holds f.ip [Opcode.setUpvalue.toByte, k])
    (hk : f.cells[k.toNat]? = some c) (hv : f.slots.back? = some v) :
    m.step host f = .running (f.goTo (f.ip + 2) f.slots)
      { m with store := m.store.write c v } := by
  rw [step_eq (code_op h)]
  have hfetch := Frame.fetch_eq (f := f.goTo (f.ip + 1) f.slots) (code_operand h)
  have hpeek := Frame.peek_eq (f := f.goTo (f.ip + 2) f.slots) hv
  have hcell := capturedCell_eq (f := f.goTo (f.ip + 2) f.slots) hk
  show m.conclude (m.storeUpvalue _) = _
  unfold storeUpvalue
  rw [hfetch]
  show m.conclude (do
    let value ← (f.goTo (f.ip + 2) f.slots).peek
    let cell ← (f.goTo (f.ip + 2) f.slots).capturedCell k.toNat
    return (f.goTo (f.ip + 2) f.slots, { m with store := m.store.write cell value })) = _
  rw [hpeek, hcell]
  rfl

/-- Without the cell there is nothing to read or to write. -/
theorem exists_step_upvalue_failed {op : Opcode} {k : UInt8}
    (hop : op = .getUpvalue ∨ op = .setUpvalue) (h : f.chunk.Holds f.ip [op.toByte, k])
    (hk : f.cells[k.toNat]? = none) : ∃ failure, m.step host f = .failed failure m := by
  have hfetch := Frame.fetch_eq (f := f.goTo (f.ip + 1) f.slots) (code_operand h)
  have hcell : (f.goTo (f.ip + 2) f.slots).capturedCell k.toNat =
      .error ⟨.upvalueOutOfRange k.toNat, f.ip + 2⟩ := by
    show Frame.expect _ _ f.cells[k.toNat]? = _
    rw [hk]
    rfl
  rw [step_eq (code_op h)]
  rcases hop with rfl | rfl
  · refine ⟨⟨.upvalueOutOfRange k.toNat, f.ip + 2⟩, ?_⟩
    show m.conclude (m.loadUpvalue _) = _
    unfold loadUpvalue
    rw [hfetch]
    show m.conclude ((f.goTo (f.ip + 2) f.slots).capturedCell k.toNat >>= _) = _
    rw [hcell]
    rfl
  · show ∃ failure, m.conclude (m.storeUpvalue _) = _
    unfold storeUpvalue
    rw [hfetch]
    show ∃ failure, m.conclude ((f.goTo (f.ip + 2) f.slots).peek >>= _) = _
    cases (f.goTo (f.ip + 2) f.slots).peek with
    | error failure => exact ⟨failure, rfl⟩
    | ok v =>
      refine ⟨⟨.upvalueOutOfRange k.toNat, f.ip + 2⟩, ?_⟩
      show m.conclude ((f.goTo (f.ip + 2) f.slots).capturedCell k.toNat >>= _) = _
      rw [hcell]
      rfl

theorem step_closeUpvalue {v : Value} (h : f.chunk.Holds f.ip [Opcode.closeUpvalue.toByte])
    (hv : f.slots.back? = some v) :
    m.step host f = .running (f.goTo (f.ip + 1) f.slots.pop)
      { m with openCells := m.openCells.erase ⟨m.depth, f.slots.pop.size⟩ } := by
  rw [step_eq (code_op h)]
  have hpop := Frame.pop_eq (f := f.goTo (f.ip + 1) f.slots) hv
  show m.conclude (m.retireUpvalue _) = _
  unfold retireUpvalue
  rw [hpop]
  rfl

/-! ## Jumps -/

theorem step_jump {d : UInt8} (h : f.chunk.Holds f.ip [Opcode.jump.toByte, d]) :
    m.step host f = .running (f.goTo (f.ip + 2 + d.toNat) f.slots) m := by
  rw [step_eq (code_op h)]
  have hfetch := Frame.fetch_eq (f := f.goTo (f.ip + 1) f.slots) (code_operand h)
  unfold carryOut runLocal
  dsimp only
  rw [hfetch]
  rfl

theorem step_jumpIfFalse {d : UInt8} {v : Value}
    (h : f.chunk.Holds f.ip [Opcode.jumpIfFalse.toByte, d]) (hv : f.slots.back? = some v) :
    m.step host f =
      match v.truth? with
      | some b => .running (f.goTo (if b then f.ip + 2 else f.ip + 2 + d.toNat) f.slots) m
      | none => .failed ⟨.conditionNotTruth v.typeName, f.ip + 2⟩ m := by
  rw [step_eq (code_op h)]
  have hfetch := Frame.fetch_eq (f := f.goTo (f.ip + 1) f.slots) (code_operand h)
  have hcondition : (f.goTo (f.ip + 2) f.slots).condition =
      (f.goTo (f.ip + 2) f.slots).expect (.conditionNotTruth v.typeName) v.truth? := by
    unfold Frame.condition
    rw [Frame.peek_eq (f := f.goTo (f.ip + 2) f.slots) hv]
    rfl
  unfold carryOut runLocal
  dsimp only
  rw [hfetch]
  show m.conclude (((do
    return if ← (f.goTo (f.ip + 2) f.slots).condition then f.goTo (f.ip + 2) f.slots
      else (f.goTo (f.ip + 2) f.slots).jumpAhead d.toNat) : Attempt Frame).map _) = _
  rw [hcondition]
  cases v.truth? with
  | none => rfl
  | some b => cases b <;> rfl

theorem step_loop {d : UInt8} (h : f.chunk.Holds f.ip [Opcode.loop.toByte, d])
    (hd : d.toNat ≤ f.ip + 2) :
    m.step host f = .running (f.goTo (f.ip + 2 - d.toNat) f.slots) m := by
  rw [step_eq (code_op h)]
  have hfetch := Frame.fetch_eq (f := f.goTo (f.ip + 1) f.slots) (code_operand h)
  have hback : (f.goTo (f.ip + 2) f.slots).jumpBack d.toNat =
      .ok (f.goTo (f.ip + 2 - d.toNat) f.slots) := if_pos hd
  unfold carryOut runLocal
  dsimp only
  rw [hfetch]
  show m.conclude (((f.goTo (f.ip + 2) f.slots).jumpBack d.toNat).map _) = _
  rw [hback]
  rfl

/-! ## Calls -/

theorem step_call {n : UInt8} (h : f.chunk.Holds f.ip [Opcode.call.toByte, n])
    (hn : n.toNat < f.slots.size) :
    m.step host f = m.invoke host (f.goTo (f.ip + 2) f.slots)
      (f.slots.size - (n.toNat + 1)) (f.slots[f.slots.size - (n.toNat + 1)]?.getD .nil) := by
  rw [step_eq (code_op h)]
  have hfetch := Frame.fetch_eq (f := f.goTo (f.ip + 1) f.slots) (code_operand h)
  show m.call host _ = _
  unfold call
  rw [hfetch]
  exact if_neg (Nat.not_le.mpr hn)

theorem step_return {v : Value} (h : f.chunk.Holds f.ip [Opcode.return.toByte])
    (hv : f.slots.back? = some v) :
    m.step host f =
      match m.callers with
      | caller :: callers => .running (caller.push v) { m.closeFrame with callers }
      | [] => .finished v m.closeFrame := by
  rw [step_eq (code_op h)]
  have hpop := Frame.pop_eq (f := f.goTo (f.ip + 1) f.slots) hv
  have hcallers : m.closeFrame.callers = m.callers := by
    unfold closeFrame
    split <;> rfl
  show m.returnFrom _ = _
  unfold returnFrom
  rw [hpop]
  show (match m.closeFrame.callers with | _ :: _ => _ | [] => _) = _
  cases hc : m.callers <;> simp only [hcallers, hc]

/-! ## Closures -/

/-- The frame has what is to be captured.  The slot behind the last one is the one
that the closure will be put into. -/
def Offers (f : Frame) (c : Capture) : Prop :=
  if c.isLocal then c.index ≤ f.slots.size else c.index < f.cells.size

/-- Takes one more cell for a closure. -/
def takeOne (f : Frame) (c : Capture) (taken : Taken) (m : Machine World) :
    Taken × Machine World :=
  if c.isLocal then
    let (cell, m) := m.cellFor c.index (f.slots[c.index]?.getD .nil)
    (⟨taken.cells.push cell, if c.index = f.slots.size then some cell else taken.own⟩, m)
  else ({ taken with cells := taken.cells.push (f.cells[c.index]?.getD default) }, m)

/-- Takes a cell for each of some captures. -/
def takeAll (f : Frame) : List Capture → Taken → Machine World → Taken × Machine World
  | [], taken, m => (taken, m)
  | c :: cs, taken, m => takeAll f cs (takeOne f c taken m).1 (takeOne f c taken m).2

theorem length_capturesOf {pairs : List UInt8} {count : Nat} (h : pairs.length = 2 * count) :
    (Instruction.capturesOf pairs).length = count := by
  induction count generalizing pairs with
  | zero =>
    obtain rfl := List.length_eq_zero_iff.mp h
    rfl
  | succ count ih =>
    match pairs, h with
    | _ :: _ :: rest, h =>
      have hrest : rest.length = 2 * count := by simpa [Nat.mul_add] using h
      exact congrArg (· + 1) (ih hrest)

theorem size_takeOne (f : Frame) (c : Capture) (taken : Taken) (m : Machine World) :
    (takeOne f c taken m).1.cells.size = taken.cells.size + 1 := by
  unfold takeOne
  split <;> exact Array.size_push _

theorem size_takeAll (f : Frame) (cs : List Capture) (taken : Taken) (m : Machine World) :
    (takeAll f cs taken m).1.cells.size = taken.cells.size + cs.length := by
  induction cs generalizing taken m with
  | nil => rfl
  | cons c cs ih =>
    refine (ih _ _).trans ?_
    rw [size_takeOne, List.length_cons]
    omega

theorem takeCell_eq {isLocal index : UInt8} {taken : Taken}
    (h : f.chunk.code[f.ip]? = some isLocal) (h' : f.chunk.code[f.ip + 1]? = some index)
    (hoffers : Offers f ⟨isLocal == 1, index.toNat⟩) :
    m.takeCell f taken = .ok ((takeOne f ⟨isLocal == 1, index.toNat⟩ taken m).1,
      f.goTo (f.ip + 2) f.slots, (takeOne f ⟨isLocal == 1, index.toNat⟩ taken m).2) := by
  unfold takeCell
  rw [Frame.fetch_eq h]
  have hindex := Frame.fetch_eq (f := f.goTo (f.ip + 1) f.slots) h'
  show (f.goTo (f.ip + 1) f.slots).fetch >>= _ = _
  rw [hindex]
  show (if isLocal = 1 then _ else _) = _
  unfold Offers at hoffers
  unfold takeOne
  dsimp only at hoffers ⊢
  by_cases hlocal : isLocal = 1
  · have hbool : (isLocal == 1) = true := by simpa using hlocal
    rw [if_pos hlocal, if_pos hbool]
    rw [if_pos hbool] at hoffers
    by_cases hown : index.toNat = f.slots.size
    · have hnone : f.slots[index.toNat]? = none := by
        rw [hown, Array.getElem?_size]
      rw [hnone]
      show (if index.toNat = f.slots.size then _ else _) = _
      rw [if_pos hown, if_pos hown]
      rfl
    · have hlt : index.toNat < f.slots.size := by omega
      obtain ⟨v, hv⟩ : ∃ v, f.slots[index.toNat]? = some v :=
        ⟨f.slots[index.toNat], Array.getElem?_eq_getElem hlt⟩
      rw [hv]
      show (if index.toNat = f.slots.size then _ else _) = _
      rw [if_neg hown, if_neg hown]
      have hslot : (f.goTo (f.ip + 2) f.slots).slot index.toNat = .ok v := by
        show Frame.expect _ _ f.slots[index.toNat]? = _
        rw [hv]
        rfl
      show (f.goTo (f.ip + 2) f.slots).slot index.toNat >>= _ = _
      rw [hslot]
      rfl
  · have hbool : (isLocal == 1) = false := by simpa using hlocal
    rw [if_neg hlocal, hbool, if_neg Bool.false_ne_true]
    rw [hbool, if_neg Bool.false_ne_true] at hoffers
    obtain ⟨cell, hcell⟩ : ∃ c, f.cells[index.toNat]? = some c :=
      ⟨f.cells[index.toNat], Array.getElem?_eq_getElem hoffers⟩
    have hcaptured := capturedCell_eq (f := f.goTo (f.ip + 2) f.slots) hcell
    rw [hcell]
    show (do
      let cell ← (f.goTo (f.ip + 2) f.slots).capturedCell index.toNat
      return ({ taken with cells := taken.cells.push cell },
        f.goTo (f.ip + 2) f.slots, m)) = _
    rw [hcaptured]
    rfl

/-- Which cells are taken does not depend on the place in the code. -/
theorem takeAll_goTo (f : Frame) (ip : Nat) (cs : List Capture) (taken : Taken)
    (m : Machine World) : takeAll (f.goTo ip f.slots) cs taken m = takeAll f cs taken m := by
  induction cs generalizing taken m with
  | nil => rfl
  | cons c cs ih => exact ih _ _

theorem takeCells_eq (count : Nat) {pairs : List UInt8} (hlen : pairs.length = 2 * count)
    {f : Frame} (h : f.chunk.Holds f.ip pairs)
    (hoffers : ∀ c ∈ Instruction.capturesOf pairs, Offers f c) (taken : Taken)
    (m : Machine World) :
    takeCells count m f taken = .ok ((takeAll f (Instruction.capturesOf pairs) taken m).1,
      f.goTo (f.ip + pairs.length) f.slots,
      (takeAll f (Instruction.capturesOf pairs) taken m).2) := by
  induction count generalizing pairs f taken m with
  | zero =>
    obtain rfl := List.length_eq_zero_iff.mp hlen
    rfl
  | succ count ih =>
    match pairs, hlen with
    | isLocal :: index :: rest, hlen =>
      have hone := hoffers ⟨isLocal == 1, index.toNat⟩ List.mem_cons_self
      have hrest : (f.goTo (f.ip + 2) f.slots).chunk.Holds (f.ip + 2) rest := by
        intro i b hb
        have hbyte := h (i + 2) b hb
        rwa [show f.ip + (i + 2) = f.ip + 2 + i by omega] at hbyte
      have htake := ih (f := f.goTo (f.ip + 2) f.slots)
        (by simpa [Nat.mul_add] using hlen) hrest
        (fun c hc => hoffers c (List.mem_cons_of_mem _ hc))
        (takeOne f ⟨isLocal == 1, index.toNat⟩ taken m).1
        (takeOne f ⟨isLocal == 1, index.toNat⟩ taken m).2
      unfold takeCells
      rw [takeCell_eq (h 0 _ rfl) (h 1 _ rfl) hone]
      refine Eq.trans htake ?_
      rw [takeAll_goTo]
      have hip : f.ip + (isLocal :: index :: rest).length = f.ip + 2 + rest.length := by
        simp only [List.length_cons]
        omega
      rw [hip]
      rfl

theorem step_closure {k : UInt8} {pairs : List UInt8} {g : Function Value}
    (h : f.chunk.Holds f.ip (Opcode.closure.toByte :: k :: pairs))
    (hk : f.chunk.constants[k.toNat]? = some (.function g))
    (hlen : pairs.length = 2 * g.captureCount)
    (hoffers : ∀ c ∈ Instruction.capturesOf pairs, Offers f c) {taken : Taken}
    {after : Machine World}
    (htake : takeAll f (Instruction.capturesOf pairs) {} m = (taken, after)) :
    m.step host f = .running
      (f.goTo (f.ip + 2 + pairs.length)
        (f.slots.push (.closure ⟨after.store.nextId, g, taken.cells⟩)))
      { after with
        store := fill after.store.freshId.2 taken.own
          (.closure ⟨after.store.nextId, g, taken.cells⟩) } := by
  rw [step_eq (code_op h)]
  have hfetch := Frame.fetchFunction_eq (f := f.goTo (f.ip + 1) f.slots) (code_operand h) hk
  have hpairs : (f.goTo (f.ip + 2) f.slots).chunk.Holds (f.ip + 2) pairs := by
    intro i b hb
    have hbyte := h (i + 2) b hb
    rwa [show f.ip + (i + 2) = f.ip + 2 + i by omega] at hbyte
  have hcells := takeCells_eq g.captureCount hlen (f := f.goTo (f.ip + 2) f.slots) hpairs
    hoffers {} m
  rw [takeAll_goTo, htake] at hcells
  show m.conclude (m.closeOver _) = _
  unfold closeOver
  rw [hfetch]
  show m.conclude (takeCells g.captureCount m (f.goTo (f.ip + 2) f.slots) {} >>= _) = _
  rw [hcells]
  rfl

/-! ### Room for cells -/

theorem roomAskedFor_of_ne {op : Opcode} (h : f.chunk.code[f.ip]? = some op.toByte)
    (hne : op ≠ .closure) : roomAskedFor f = 0 := by
  unfold roomAskedFor
  rw [fetchOpcode_eq h]
  split
  · next hop => exact absurd (congrArg Prod.fst (Except.ok.inj hop)) hne
  · rfl

/-- A closure asks for as many cells as its function captures. -/
theorem roomAskedFor_closure {k : UInt8} {g : Function Value}
    (h : f.chunk.code[f.ip]? = some Opcode.closure.toByte)
    (hbyte : f.chunk.code[f.ip + 1]? = some k)
    (hk : f.chunk.constants[k.toNat]? = some (.function g)) :
    roomAskedFor f = g.captureCount := by
  have hfetch := Frame.fetchFunction_eq (f := f.goTo (f.ip + 1) f.slots) hbyte hk
  unfold roomAskedFor
  rw [fetchOpcode_eq h]
  dsimp only
  rw [hfetch]

/-- An instruction with an effect asks for no more cells than a word can count the bytes of. -/
theorem roomAskedFor_lt_of_effect {captureCount next : Nat} {op : Opcode}
    {operands : List UInt8} {Γ : Layout} {after : List (Nat × Layout)}
    (h : f.chunk.Holds f.ip (op.toByte :: operands))
    (heff : Effect f.chunk.constants captureCount next op operands Γ after) :
    2 * roomAskedFor f < UInt64.size := by
  by_cases hop : op = .closure
  · subst hop
    cases heff with
    | closure hk hsize hword =>
      rwa [roomAskedFor_closure (code_op h) (code_operand h) hk, ← hsize]
    | literal hop => cases hop
    | binary hop => cases hop
    | unary hop => cases hop
  · rw [roomAskedFor_of_ne (code_op h) hop]
    decide

end Machine

end ScriptEngine
