import ScriptEngine.Proofs.Decode
import ScriptEngine.Proofs.Machine.Instructions
set_option autoImplicit false

/-!
# Machine: reading code as the decoder does

The machine takes the bytes of an instruction one at a time while it carries the
instruction out; the decoder takes them all at once.  Whatever the code is, the two
agree: a step that does not fail carries out the instruction that is decoded at its
place and goes on behind it or at its target, and where nothing is decoded the step
fails (`step_agrees_decode`).

The proof goes backwards through a step that did not fail: each read in it found a
byte, and these bytes are the instruction.
-/

namespace ScriptEngine

variable {World : Type}

/-! ## What a step should do -/

/-- The instruction does not go on behind itself in this frame. -/
def Instruction.Jumps (i : Instruction) (f : Frame) : Prop :=
  match i.op with
  | .jump | .loop => True
  | .jumpIfFalse => f.slots.back?.bind Value.truth? = some false
  | _ => False

/-- The step has failed. -/
def Progress.HasFailed (p : Progress World) : Prop :=
  ∃ failure m, p = .failed failure m

theorem Progress.not_hasFailed {p : Progress World} {f : Frame} {m : Machine World}
    (h : p = .running f m) : ¬ p.HasFailed := by
  rintro ⟨failure, k, hfailed⟩
  cases h.symm.trans hfailed

namespace Machine

/-- Where a step leads that carries out the instruction `i` in the frame `f`. -/
inductive Follows (m : Machine World) (f : Frame) (i : Instruction) : Progress World → Prop where
  | behind {slots : Array Value} {m' : Machine World} (closure : i.op ≠ .closure)
      (return' : i.op ≠ .return) (jumps : ¬ i.Jumps f) (callers : m'.callers = m.callers) :
      Follows m f i (.running (f.goTo (f.ip + i.size) slots) m')
  | target {o : Nat} (jumps : i.Jumps f) (target : i.target? = some o) :
      Follows m f i (.running (f.goTo o f.slots) m)
  /-- The cells of the new closure are what the captures list, in their order. -/
  | closed {k : Nat} {g : Function Value} {taken : Taken} {after m' : Machine World}
      (op : i.op = .closure) (constant : i.constant? = some k)
      (function : f.chunk.constants[k]? = some (.function g))
      (count : i.captures.length = g.captureCount) (offers : ∀ c ∈ i.captures, Offers f c)
      (captures : takeAll f i.captures {} m = (taken, after))
      (callers : m'.callers = after.callers) :
      Follows m f i (.running
        (f.goTo (f.ip + i.size) (f.slots.push (.closure ⟨after.store.nextId, g, taken.cells⟩))) m')
  /-- The caller is suspended behind its call. -/
  | entered {callee : Frame} {slots : Array Value} {m' : Machine World} (op : i.op = .call)
      (start : callee.ip = 0) (callers : m'.callers = f.goTo (f.ip + i.size) slots :: m.callers) :
      Follows m f i (.running callee m')
  | resumed {caller : Frame} {v : Value} {m' : Machine World} (op : i.op = .return)
      (callers : m.callers = caller :: m'.callers) :
      Follows m f i (.running (caller.push v) m')
  | finished {v : Value} {m' : Machine World} (op : i.op = .return) (callers : m.callers = []) :
      Follows m f i (.finished v m')

end Machine

/-! ## Attempts that succeed -/

namespace Attempt

theorem exists_of_bind {α β : Type} {x : Attempt α} {k : α → Attempt β} {b : β}
    (h : x >>= k = .ok b) : ∃ a, x = .ok a ∧ k a = .ok b := by
  cases x with
  | ok a => exact ⟨a, rfl, h⟩
  | error failure => cases h

theorem exists_of_map {α β : Type} {x : Attempt α} {k : α → β} {b : β}
    (h : x.map k = .ok b) : ∃ a, x = .ok a ∧ k a = b := by
  cases x with
  | ok a => exact ⟨a, rfl, Except.ok.inj h⟩
  | error failure => cases h

end Attempt

namespace Frame

variable {f g : Frame}

theorem expect_ok {α : Type} {fault : Fault} {found : Option α} {a : α}
    (h : f.expect fault found = .ok a) : found = some a := by
  cases found with
  | none => cases h
  | some b => exact congrArg some (Except.ok.inj h)

/-! ### Reading code -/

theorem fetch_ok {byte : UInt8} (h : f.fetch = .ok (byte, g)) :
    f.chunk.code[f.ip]? = some byte ∧ g = f.goTo (f.ip + 1) f.slots := by
  obtain ⟨b, hb, hrest⟩ := Attempt.exists_of_bind h
  cases hrest
  exact ⟨expect_ok hb, rfl⟩

theorem fetchConstant_ok {v : Value} (h : f.fetchConstant = .ok (v, g)) :
    ∃ k : UInt8, f.chunk.code[f.ip]? = some k ∧
      f.chunk.constants[k.toNat]? = some v ∧ g = f.goTo (f.ip + 1) f.slots := by
  obtain ⟨⟨k, f'⟩, hk, hrest⟩ := Attempt.exists_of_bind h
  obtain ⟨hbyte, rfl⟩ := fetch_ok hk
  obtain ⟨w, hw, hlast⟩ := Attempt.exists_of_bind hrest
  cases hlast
  exact ⟨k, hbyte, expect_ok hw, rfl⟩

theorem fetchName_ok {name : String} (h : f.fetchName = .ok (name, g)) :
    ∃ k : UInt8, f.chunk.code[f.ip]? = some k ∧ g = f.goTo (f.ip + 1) f.slots := by
  obtain ⟨⟨v, f'⟩, hv, hrest⟩ := Attempt.exists_of_bind h
  obtain ⟨k, hbyte, -, rfl⟩ := fetchConstant_ok hv
  dsimp only at hrest
  split at hrest
  · cases hrest
    exact ⟨k, hbyte, rfl⟩
  · cases hrest

theorem fetchFunction_ok {p : Function Value} (h : f.fetchFunction = .ok (p, g)) :
    ∃ k : UInt8, f.chunk.code[f.ip]? = some k ∧
      f.chunk.constants[k.toNat]? = some (.function p) ∧ g = f.goTo (f.ip + 1) f.slots := by
  obtain ⟨⟨v, f'⟩, hv, hrest⟩ := Attempt.exists_of_bind h
  obtain ⟨k, hbyte, hconstant, rfl⟩ := fetchConstant_ok hv
  dsimp only at hrest
  split at hrest
  · cases hrest
    exact ⟨k, hbyte, hconstant, rfl⟩
  · cases hrest

/-! ### The stack -/

/-- Only the slots differ. -/
def Beside (f g : Frame) : Prop := ∃ slots, g = f.goTo f.ip slots

theorem Beside.push (h : f.Beside g) (v : Value) : f.Beside (g.push v) := by
  obtain ⟨slots, rfl⟩ := h
  exact ⟨slots.push v, rfl⟩

theorem Beside.trans {p : Frame} (h : f.Beside g) (k : g.Beside p) : f.Beside p := by
  obtain ⟨slots, rfl⟩ := h
  obtain ⟨slots', rfl⟩ := k
  exact ⟨slots', rfl⟩

theorem pop_ok {v : Value} (h : f.pop = .ok (v, g)) :
    f.slots.back? = some v ∧ g = f.goTo f.ip f.slots.pop := by
  obtain ⟨w, hw, hrest⟩ := Attempt.exists_of_bind h
  cases hrest
  exact ⟨expect_ok hw, rfl⟩

theorem beside_pop {v : Value} (h : f.pop = .ok (v, g)) : f.Beside g :=
  ⟨_, (pop_ok h).2⟩

theorem beside_popTwo {x y : Value} (h : f.popTwo = .ok (x, y, g)) : f.Beside g := by
  obtain ⟨⟨upper, f'⟩, hupper, hrest⟩ := Attempt.exists_of_bind h
  obtain ⟨⟨lower, f''⟩, hlower, hlast⟩ := Attempt.exists_of_bind hrest
  cases hlast
  exact (beside_pop hupper).trans (beside_pop hlower)

theorem beside_popTwoNumbers {x y : Float} (h : f.popTwoNumbers = .ok (x, y, g)) :
    f.Beside g := by
  obtain ⟨⟨a, b, f'⟩, hpop, hrest⟩ := Attempt.exists_of_bind h
  split at hrest
  · next heq =>
    cases hrest
    cases heq
    exact beside_popTwo hpop
  · cases hrest

end Frame

/-! ## Instructions within a frame -/

namespace Machine

section Operators

variable {f g : Frame}

theorem beside_add (h : add f = .ok g) : f.Beside g := by
  obtain ⟨⟨x, y, f'⟩, hpop, hrest⟩ := Attempt.exists_of_bind h
  obtain ⟨v, -, hlast⟩ := Attempt.exists_of_bind hrest
  cases hlast
  exact (Frame.beside_popTwo hpop).push v

theorem beside_arithmetic {op : Float → Float → Float} (h : arithmetic op f = .ok g) :
    f.Beside g := by
  obtain ⟨⟨x, y, f'⟩, hpop, hrest⟩ := Attempt.exists_of_bind h
  cases hrest
  exact (Frame.beside_popTwoNumbers hpop).push _

theorem beside_comparison (op : Float → Float → Bool) (h : comparison op f = .ok g) :
    f.Beside g := by
  obtain ⟨⟨x, y, f'⟩, hpop, hrest⟩ := Attempt.exists_of_bind h
  cases hrest
  exact (Frame.beside_popTwoNumbers hpop).push _

theorem beside_equality (h : equality f = .ok g) : f.Beside g := by
  obtain ⟨⟨x, y, f'⟩, hpop, hrest⟩ := Attempt.exists_of_bind h
  cases hrest
  exact (Frame.beside_popTwo hpop).push _

theorem beside_negation (h : negation f = .ok g) : f.Beside g := by
  obtain ⟨⟨x, f'⟩, hpop, hrest⟩ := Attempt.exists_of_bind h
  obtain ⟨v, -, hlast⟩ := Attempt.exists_of_bind hrest
  cases hlast
  exact (Frame.beside_pop hpop).push _

theorem beside_opposite (h : opposite f = .ok g) : f.Beside g := by
  obtain ⟨⟨x, f'⟩, hpop, hrest⟩ := Attempt.exists_of_bind h
  obtain ⟨v, -, hlast⟩ := Attempt.exists_of_bind hrest
  cases hlast
  exact (Frame.beside_pop hpop).push _

end Operators

/-! ## Instructions that are carried out -/

section Steps

variable {host : Host World} {m : Machine World} {f : Frame}

/-- The step carries out an opcode with these operands. -/
structure CarriesOut (m : Machine World) (f : Frame) (op : Opcode) (operands : List UInt8)
    (p : Progress World) : Prop where
  holds : f.chunk.Holds f.ip (op.toByte :: operands)
  count : 2 * roomAskedFor f < UInt64.size → f.chunk.operandBytes f.ip op = .ok operands.length
  follows : ∀ line, m.Follows f ⟨f.ip, line, op, operands⟩ p

/-- The frame behind an opcode. -/
abbrev behindOpcode (f : Frame) : Frame := f.goTo (f.ip + 1) f.slots

theorem holds_op {op : Opcode} (hop : f.chunk.code[f.ip]? = some op.toByte) :
    f.chunk.Holds f.ip [op.toByte] := by
  intro i b hb
  match i, hb with
  | 0, hb =>
    cases hb
    exact hop

theorem holds_operand {op : Opcode} {k : UInt8} (hop : f.chunk.code[f.ip]? = some op.toByte)
    (hk : f.chunk.code[f.ip + 1]? = some k) : f.chunk.Holds f.ip [op.toByte, k] := by
  intro i b hb
  match i, hb with
  | 0, hb =>
    cases hb
    exact hop
  | 1, hb =>
    cases hb
    exact hk

theorem exists_of_conclude {attempt : Attempt (Frame × Machine World)}
    (h : ¬ (m.conclude attempt).HasFailed) : ∃ g m', attempt = .ok (g, m') := by
  cases attempt with
  | ok r => exact ⟨r.1, r.2, rfl⟩
  | error failure => exact absurd ⟨failure, m, rfl⟩ h

theorem exists_of_conclude_map {attempt : Attempt Frame}
    (h : ¬ (m.conclude (attempt.map fun g => (g, m))).HasFailed) : ∃ g, attempt = .ok g := by
  cases attempt with
  | ok g => exact ⟨g, rfl⟩
  | error failure => exact absurd ⟨failure, m, rfl⟩ h

/-- An instruction that fails in this way leaves the machine as it is. -/
theorem eq_of_conclude_failed {k : Machine World} {failure : Failure}
    {attempt : Attempt (Frame × Machine World)} (h : m.conclude attempt = .failed failure k) :
    k = m := by
  unfold conclude at h
  split at h
  · cases h
  · exact (Progress.failed.inj h).2.symm

/-- An instruction without operands that stays in its frame. -/
theorem carriesOut_plain {op : Opcode} {g : Frame} {m' : Machine World}
    (hop : f.chunk.code[f.ip]? = some op.toByte) (hplain : op.operandBytes = 0)
    (hreturn : op ≠ .return) (hg : (behindOpcode f).Beside g) (hcallers : m'.callers = m.callers) :
    CarriesOut m f op [] (.running g m') := by
  have hclosure : op ≠ .closure := by
    rintro rfl
    cases hplain
  obtain ⟨slots, rfl⟩ := hg
  refine ⟨holds_op hop, fun _ => Chunk.operandBytes_of_ne hclosure hplain,
    fun line => .behind hclosure hreturn ?_ hcallers⟩
  cases op <;> first | exact id | cases hplain

/-- An instruction with one operand that goes on behind itself. -/
theorem carriesOut_operand {op : Opcode} {k : UInt8} {g : Frame} {m' : Machine World}
    (hop : f.chunk.code[f.ip]? = some op.toByte) (hk : f.chunk.code[f.ip + 1]? = some k)
    (hone : op.operandBytes = 1) (hclosure : op ≠ .closure)
    (hjumps : ∀ line, ¬ Instruction.Jumps ⟨f.ip, line, op, [k]⟩ f)
    (hg : (f.goTo (f.ip + 2) f.slots).Beside g) (hcallers : m'.callers = m.callers) :
    CarriesOut m f op [k] (.running g m') := by
  have hreturn : op ≠ .return := by
    rintro rfl
    cases hone
  obtain ⟨slots, rfl⟩ := hg
  exact ⟨holds_operand hop hk, fun _ => Chunk.operandBytes_of_ne hclosure hone,
    fun line => .behind hclosure hreturn (hjumps line) hcallers⟩

/-- A jump that is taken. -/
theorem carriesOut_jump {op : Opcode} {k : UInt8} {o : Nat}
    (hop : f.chunk.code[f.ip]? = some op.toByte) (hk : f.chunk.code[f.ip + 1]? = some k)
    (hone : op.operandBytes = 1) (hclosure : op ≠ .closure)
    (hjumps : ∀ line, Instruction.Jumps ⟨f.ip, line, op, [k]⟩ f)
    (htarget : ∀ line, Instruction.target? ⟨f.ip, line, op, [k]⟩ = some o) :
    CarriesOut m f op [k] (.running (f.goTo o f.slots) m) := by
  exact ⟨holds_operand hop hk, fun _ => Chunk.operandBytes_of_ne hclosure hone,
    fun line => .target (hjumps line) (htarget line)⟩

/-! ### Within a frame -/

theorem carriesOut_operator {op : Opcode} (hop : f.chunk.code[f.ip]? = some op.toByte)
    (hkind : op.isBinary = true ∨ op.isUnary = true ∨ op.isLiteral = true ∨ op = .pop) {g : Frame}
    (h : runLocal op (behindOpcode f) = .ok g) : CarriesOut m f op [] (.running g m) := by
  have hreturn : op ≠ .return := by
    rintro rfl
    rcases hkind with h | h | h | h <;> cases h
  have hplain : op.operandBytes = 0 := by
    cases op <;> first | rfl | (rcases hkind with h | h | h | h <;> cases h)
  refine carriesOut_plain hop hplain hreturn ?_ rfl
  cases op with
  | nil | true | false =>
    cases h
    exact ⟨_, rfl⟩
  | pop =>
    obtain ⟨⟨v, g'⟩, hpop, hlast⟩ := Attempt.exists_of_bind h
    cases hlast
    exact Frame.beside_pop hpop
  | equal => exact beside_equality h
  | greater => exact beside_comparison (fun x y => y < x) h
  | less => exact beside_comparison (fun x y => x < y) h
  | add => exact beside_add h
  | subtract | multiply | divide => exact beside_arithmetic h
  | not => exact beside_negation h
  | negate => exact beside_opposite h
  | _ => rcases hkind with h | h | h | h <;> cases h

theorem carriesOut_constant (hop : f.chunk.code[f.ip]? = some Opcode.constant.toByte) {g : Frame}
    (h : runLocal .constant (behindOpcode f) = .ok g) :
    ∃ k, CarriesOut m f .constant [k] (.running g m) := by
  obtain ⟨⟨v, g'⟩, hfetch, hlast⟩ := Attempt.exists_of_bind h
  obtain ⟨k, hk, -, rfl⟩ := Frame.fetchConstant_ok hfetch
  cases hlast
  exact ⟨k, carriesOut_operand hop hk rfl nofun (fun _ => id) ⟨_, rfl⟩ rfl⟩

theorem carriesOut_getLocal (hop : f.chunk.code[f.ip]? = some Opcode.getLocal.toByte) {g : Frame}
    (h : runLocal .getLocal (behindOpcode f) = .ok g) :
    ∃ k, CarriesOut m f .getLocal [k] (.running g m) := by
  obtain ⟨⟨k, g'⟩, hfetch, hrest⟩ := Attempt.exists_of_bind h
  obtain ⟨hk, rfl⟩ := Frame.fetch_ok hfetch
  obtain ⟨v, -, hlast⟩ := Attempt.exists_of_bind hrest
  cases hlast
  exact ⟨k, carriesOut_operand hop hk rfl nofun (fun _ => id) ⟨_, rfl⟩ rfl⟩

theorem carriesOut_setLocal (hop : f.chunk.code[f.ip]? = some Opcode.setLocal.toByte) {g : Frame}
    (h : runLocal .setLocal (behindOpcode f) = .ok g) :
    ∃ k, CarriesOut m f .setLocal [k] (.running g m) := by
  obtain ⟨⟨k, g'⟩, hfetch, hrest⟩ := Attempt.exists_of_bind h
  obtain ⟨hk, rfl⟩ := Frame.fetch_ok hfetch
  obtain ⟨v, -, hset⟩ := Attempt.exists_of_bind hrest
  dsimp only [Frame.setSlot] at hset
  split at hset
  · cases hset
    exact ⟨k, carriesOut_operand hop hk rfl nofun (fun _ => id) ⟨_, rfl⟩ rfl⟩
  · cases hset

theorem carriesOut_forward (hop : f.chunk.code[f.ip]? = some Opcode.jump.toByte) {g : Frame}
    (h : runLocal .jump (behindOpcode f) = .ok g) :
    ∃ k, CarriesOut m f .jump [k] (.running g m) := by
  obtain ⟨⟨k, g'⟩, hfetch, hlast⟩ := Attempt.exists_of_bind h
  obtain ⟨hk, rfl⟩ := Frame.fetch_ok hfetch
  cases hlast
  exact ⟨k, carriesOut_jump hop hk rfl nofun (fun _ => trivial) (fun _ => rfl)⟩

theorem carriesOut_jumpIfFalse (hop : f.chunk.code[f.ip]? = some Opcode.jumpIfFalse.toByte)
    {g : Frame} (h : runLocal .jumpIfFalse (behindOpcode f) = .ok g) :
    ∃ k, CarriesOut m f .jumpIfFalse [k] (.running g m) := by
  obtain ⟨⟨k, g'⟩, hfetch, hrest⟩ := Attempt.exists_of_bind h
  obtain ⟨hk, rfl⟩ := Frame.fetch_ok hfetch
  obtain ⟨b, hcondition, hlast⟩ := Attempt.exists_of_bind hrest
  obtain ⟨v, hv, htruth⟩ := Attempt.exists_of_bind hcondition
  have hback : f.slots.back?.bind Value.truth? = some b := by
    rw [show f.slots.back? = some v from Frame.expect_ok hv]
    exact Frame.expect_ok htruth
  cases hlast
  cases b with
  | true =>
    refine ⟨k, carriesOut_operand hop hk rfl nofun (fun _ hjumps => ?_) ⟨_, rfl⟩ rfl⟩
    cases hback.symm.trans hjumps
  | false => exact ⟨k, carriesOut_jump hop hk rfl nofun (fun _ => hback) (fun _ => rfl)⟩

theorem carriesOut_loop (hop : f.chunk.code[f.ip]? = some Opcode.loop.toByte) {g : Frame}
    (h : runLocal .loop (behindOpcode f) = .ok g) :
    ∃ k, CarriesOut m f .loop [k] (.running g m) := by
  obtain ⟨⟨k, g'⟩, hfetch, hback⟩ := Attempt.exists_of_bind h
  obtain ⟨hk, rfl⟩ := Frame.fetch_ok hfetch
  dsimp only [Frame.jumpBack] at hback
  split at hback
  · next hle =>
    cases hback
    exact ⟨k, carriesOut_jump hop hk rfl nofun (fun _ => trivial) (fun _ => if_pos hle)⟩
  · cases hback

/-! ### Variables -/

theorem carriesOut_getGlobal (hop : f.chunk.code[f.ip]? = some Opcode.getGlobal.toByte)
    {g : Frame} {m' : Machine World} (h : m.loadGlobal (behindOpcode f) = .ok (g, m')) :
    ∃ k, CarriesOut m f .getGlobal [k] (.running g m') := by
  obtain ⟨⟨name, g'⟩, hfetch, hrest⟩ := Attempt.exists_of_bind h
  obtain ⟨k, hk, rfl⟩ := Frame.fetchName_ok hfetch
  obtain ⟨v, -, hlast⟩ := Attempt.exists_of_bind hrest
  cases hlast
  exact ⟨k, carriesOut_operand hop hk rfl nofun (fun _ => id) ⟨_, rfl⟩ rfl⟩

theorem carriesOut_defineGlobal (hop : f.chunk.code[f.ip]? = some Opcode.defineGlobal.toByte)
    {g : Frame} {m' : Machine World} (h : m.introduceGlobal (behindOpcode f) = .ok (g, m')) :
    ∃ k, CarriesOut m f .defineGlobal [k] (.running g m') := by
  obtain ⟨⟨name, g'⟩, hfetch, hrest⟩ := Attempt.exists_of_bind h
  obtain ⟨k, hk, rfl⟩ := Frame.fetchName_ok hfetch
  obtain ⟨⟨v, g''⟩, hpop, hlast⟩ := Attempt.exists_of_bind hrest
  cases hlast
  exact ⟨k, carriesOut_operand hop hk rfl nofun (fun _ => id) (Frame.beside_pop hpop) rfl⟩

theorem carriesOut_setGlobal (hop : f.chunk.code[f.ip]? = some Opcode.setGlobal.toByte)
    {g : Frame} {m' : Machine World} (h : m.storeGlobal (behindOpcode f) = .ok (g, m')) :
    ∃ k, CarriesOut m f .setGlobal [k] (.running g m') := by
  obtain ⟨⟨name, g'⟩, hfetch, hrest⟩ := Attempt.exists_of_bind h
  obtain ⟨k, hk, rfl⟩ := Frame.fetchName_ok hfetch
  obtain ⟨v, -, hrest⟩ := Attempt.exists_of_bind hrest
  obtain ⟨globals, -, hlast⟩ := Attempt.exists_of_bind hrest
  cases hlast
  exact ⟨k, carriesOut_operand hop hk rfl nofun (fun _ => id) ⟨_, rfl⟩ rfl⟩

theorem carriesOut_getUpvalue (hop : f.chunk.code[f.ip]? = some Opcode.getUpvalue.toByte)
    {g : Frame} {m' : Machine World} (h : m.loadUpvalue (behindOpcode f) = .ok (g, m')) :
    ∃ k, CarriesOut m f .getUpvalue [k] (.running g m') := by
  obtain ⟨⟨k, g'⟩, hfetch, hrest⟩ := Attempt.exists_of_bind h
  obtain ⟨hk, rfl⟩ := Frame.fetch_ok hfetch
  obtain ⟨cell, -, hlast⟩ := Attempt.exists_of_bind hrest
  cases hlast
  exact ⟨k, carriesOut_operand hop hk rfl nofun (fun _ => id) ⟨_, rfl⟩ rfl⟩

theorem carriesOut_setUpvalue (hop : f.chunk.code[f.ip]? = some Opcode.setUpvalue.toByte)
    {g : Frame} {m' : Machine World} (h : m.storeUpvalue (behindOpcode f) = .ok (g, m')) :
    ∃ k, CarriesOut m f .setUpvalue [k] (.running g m') := by
  obtain ⟨⟨k, g'⟩, hfetch, hrest⟩ := Attempt.exists_of_bind h
  obtain ⟨hk, rfl⟩ := Frame.fetch_ok hfetch
  obtain ⟨v, -, hrest⟩ := Attempt.exists_of_bind hrest
  obtain ⟨cell, -, hlast⟩ := Attempt.exists_of_bind hrest
  cases hlast
  exact ⟨k, carriesOut_operand hop hk rfl nofun (fun _ => id) ⟨_, rfl⟩ rfl⟩

theorem carriesOut_closeUpvalue (hop : f.chunk.code[f.ip]? = some Opcode.closeUpvalue.toByte)
    {g : Frame} {m' : Machine World} (h : m.retireUpvalue (behindOpcode f) = .ok (g, m')) :
    CarriesOut m f .closeUpvalue [] (.running g m') := by
  obtain ⟨⟨v, g'⟩, hpop, hlast⟩ := Attempt.exists_of_bind h
  cases hlast
  exact carriesOut_plain hop rfl nofun (Frame.beside_pop hpop) rfl

/-! ### Closures -/

/-- A cell is taken for a capture that is in the code and on offer. -/
theorem takeCell_ok {taken : Taken} {r : Taken × Frame × Machine World}
    (h : m.takeCell f taken = .ok r) : ∃ isLocal index : UInt8,
      f.chunk.code[f.ip]? = some isLocal ∧ f.chunk.code[f.ip + 1]? = some index ∧
      Offers f ⟨isLocal == 1, index.toNat⟩ := by
  obtain ⟨⟨isLocal, g⟩, hlocal, hrest⟩ := Attempt.exists_of_bind h
  obtain ⟨hfirst, rfl⟩ := Frame.fetch_ok hlocal
  obtain ⟨⟨index, g⟩, hindex, hrest⟩ := Attempt.exists_of_bind hrest
  obtain ⟨hsecond, rfl⟩ := Frame.fetch_ok hindex
  refine ⟨isLocal, index, hfirst, hsecond, ?_⟩
  unfold Offers
  dsimp only at hrest ⊢
  split at hrest
  · next hone =>
    rw [if_pos (by simpa using hone)]
    split at hrest
    · next hown => exact Nat.le_of_eq hown
    · obtain ⟨v, hv, -⟩ := Attempt.exists_of_bind hrest
      have hslot : f.slots[index.toNat]? = some v := Frame.expect_ok hv
      exact Nat.le_of_lt (Array.getElem?_eq_some_iff.mp hslot).1
  · next hone =>
    rw [if_neg (by simpa using hone)]
    obtain ⟨cell, hcell, -⟩ := Attempt.exists_of_bind hrest
    have hcaptured : f.cells[index.toNat]? = some cell := Frame.expect_ok hcell
    exact (Array.getElem?_eq_some_iff.mp hcaptured).1

/-- The cells of a closure are taken for captures that are in the code and on offer. -/
theorem takeCells_ok {count : Nat} {m : Machine World} {f : Frame} {taken : Taken}
    {r : Taken × Frame × Machine World} (h : takeCells count m f taken = .ok r) :
    ∃ pairs : List UInt8, pairs.length = 2 * count ∧ f.chunk.Holds f.ip pairs ∧
      ∀ c ∈ Instruction.capturesOf pairs, Offers f c := by
  induction count generalizing m f taken with
  | zero =>
    exact ⟨[], rfl, fun i b hb => (nomatch hb), fun c hc => absurd hc List.not_mem_nil⟩
  | succ count ih =>
    obtain ⟨r', hone, hrest⟩ := Attempt.exists_of_bind h
    obtain ⟨isLocal, index, hfirst, hsecond, hoffers⟩ := takeCell_ok hone
    rw [takeCell_eq hfirst hsecond hoffers] at hone
    cases hone
    obtain ⟨pairs, hlen, hpairs, hall⟩ := ih hrest
    refine ⟨isLocal :: index :: pairs, ?_, ?_, ?_⟩
    · rw [List.length_cons, List.length_cons, hlen]
      omega
    · intro i b hb
      match i, hb with
      | 0, hb => exact hfirst.trans hb
      | 1, hb => exact hsecond.trans hb
      | i + 2, hb =>
        have hbyte : f.chunk.code[f.ip + 2 + i]? = some b := hpairs i b hb
        rwa [show f.ip + (i + 2) = f.ip + 2 + i by omega]
    · exact List.forall_mem_cons.mpr ⟨hoffers, hall⟩

theorem carriesOut_closure (hop : f.chunk.code[f.ip]? = some Opcode.closure.toByte)
    (h : ¬ (m.step host f).HasFailed) :
    ∃ operands, CarriesOut m f .closure operands (m.step host f) := by
  have hstep : m.step host f = m.conclude (m.closeOver (behindOpcode f)) := step_eq hop
  obtain ⟨g, m', hclose⟩ := exists_of_conclude (hstep ▸ h)
  obtain ⟨⟨p, g'⟩, hfetch, hrest⟩ := Attempt.exists_of_bind hclose
  obtain ⟨k, hk, hp, rfl⟩ := Frame.fetchFunction_ok hfetch
  obtain ⟨r, htake, -⟩ := Attempt.exists_of_bind hrest
  obtain ⟨pairs, hlen, hpairs, hoffers⟩ := takeCells_ok htake
  have hholds : f.chunk.Holds f.ip (Opcode.closure.toByte :: k :: pairs) := by
    intro i b hb
    match i, hb with
    | 0, hb => exact hop.trans hb
    | 1, hb => exact hk.trans hb
    | i + 2, hb =>
      have hbyte : f.chunk.code[f.ip + 1 + 1 + i]? = some b := hpairs i b hb
      rwa [show f.ip + (i + 2) = f.ip + 1 + 1 + i by omega]
  have hcount : 2 * roomAskedFor f < UInt64.size →
      f.chunk.operandBytes f.ip .closure = .ok (k :: pairs).length := by
    intro hroom
    rw [roomAskedFor_closure hop hk hp, ← hlen] at hroom
    exact Chunk.operandBytes_of_pairs hk hp hlen hroom
  obtain ⟨taken, after, hpair⟩ :
      ∃ taken after, takeAll f (Instruction.capturesOf pairs) {} m = (taken, after) :=
    ⟨_, _, rfl⟩
  refine ⟨k :: pairs, hholds, hcount, fun line => ?_⟩
  rw [step_closure hholds hp hlen hoffers hpair]
  have hsize : f.ip + 2 + pairs.length =
      f.ip + (Instruction.mk f.ip line .closure (k :: pairs)).size := by
    simp only [Instruction.size, List.length_cons]
    omega
  rw [hsize]
  exact .closed rfl rfl hp (length_capturesOf hlen) hoffers hpair rfl

/-! ### Calls -/

theorem follows_enter {i : Instruction} (hop : i.op = .call) {base : Nat}
    {function : Function Value} {cells : Array Cell}
    (h : ¬ (m.enter (f.goTo (f.ip + i.size) f.slots) base function cells).HasFailed) :
    m.Follows f i (m.enter (f.goTo (f.ip + i.size) f.slots) base function cells) := by
  unfold enter at h ⊢
  split at h
  · next hcount =>
    rw [if_pos hcount]
    exact .entered hop rfl rfl
  · exact absurd ⟨_, _, rfl⟩ h

theorem follows_invokeNative {i : Instruction} (hop : i.op = .call) {base : Nat}
    {native : Native}
    (h : ¬ (m.invokeNative host (f.goTo (f.ip + i.size) f.slots) base native).HasFailed) :
    m.Follows f i (m.invokeNative host (f.goTo (f.ip + i.size) f.slots) base native) := by
  have hjumps : ¬ i.Jumps f := by
    unfold Instruction.Jumps
    rw [hop]
    exact id
  unfold invokeNative at h ⊢
  dsimp only at h ⊢
  split at h
  · exact .behind (by rw [hop]; exact nofun) (by rw [hop]; exact nofun) hjumps rfl
  · exact absurd ⟨_, _, rfl⟩ h

theorem follows_invoke {i : Instruction} (hop : i.op = .call) {base : Nat} {callee : Value}
    (h : ¬ (m.invoke host (f.goTo (f.ip + i.size) f.slots) base callee).HasFailed) :
    m.Follows f i (m.invoke host (f.goTo (f.ip + i.size) f.slots) base callee) := by
  cases callee with
  | closure c => exact follows_enter hop h
  | function g => exact follows_enter hop h
  | native n =>
    unfold invoke at h ⊢
    dsimp only at h ⊢
    split at h
    · next hcount =>
      rw [if_pos hcount]
      exact follows_invokeNative hop h
    · exact absurd ⟨_, _, rfl⟩ h
  | _ => exact absurd ⟨_, _, rfl⟩ h

theorem carriesOut_call (hop : f.chunk.code[f.ip]? = some Opcode.call.toByte)
    (h : ¬ (m.call host (behindOpcode f)).HasFailed) :
    ∃ k, CarriesOut m f .call [k] (m.call host (behindOpcode f)) := by
  unfold call at h ⊢
  split at h
  · exact absurd ⟨_, _, rfl⟩ h
  · next k g hfetch =>
    obtain ⟨hk, rfl⟩ := Frame.fetch_ok hfetch
    dsimp only at h ⊢
    split at h
    · exact absurd ⟨_, _, rfl⟩ h
    · next hsize =>
      rw [if_neg hsize]
      refine ⟨k, holds_operand hop hk, fun _ => rfl, fun line => ?_⟩
      exact follows_invoke (i := ⟨f.ip, line, .call, [k]⟩) rfl h

theorem carriesOut_return (hop : f.chunk.code[f.ip]? = some Opcode.return.toByte)
    (h : ¬ (m.returnFrom (behindOpcode f)).HasFailed) :
    CarriesOut m f .return [] (m.returnFrom (behindOpcode f)) := by
  refine ⟨holds_op hop, fun _ => rfl, fun line => ?_⟩
  have hcallers : m.closeFrame.callers = m.callers := by
    unfold closeFrame
    split <;> rfl
  unfold returnFrom at h ⊢
  split at h
  · exact absurd ⟨_, _, rfl⟩ h
  · dsimp only at h ⊢
    split
    · next caller callers hwaiting => exact .resumed rfl (hcallers.symm.trans hwaiting)
    · next hnone => exact .finished rfl (hcallers.symm.trans hnone)

/-! ## Every step -/

/-- A step that does not fail carries out the opcode at its place. -/
theorem exists_carriesOut {op : Opcode} (hop : f.chunk.code[f.ip]? = some op.toByte)
    (h : ¬ (m.step host f).HasFailed) :
    ∃ operands, CarriesOut m f op operands (m.step host f) := by
  have hstep : m.step host f = m.carryOut host (behindOpcode f) op := step_eq hop
  have hlocal : m.carryOut host (behindOpcode f) op =
      m.conclude ((runLocal op (behindOpcode f)).map fun g => (g, m)) →
      ∃ g, runLocal op (behindOpcode f) = .ok g ∧ m.step host f = .running g m := by
    intro heq
    rw [hstep, heq] at h
    obtain ⟨g, hg⟩ := exists_of_conclude_map h
    refine ⟨g, hg, ?_⟩
    rw [hstep, heq, hg]
    rfl
  have hwide : ∀ attempt, m.carryOut host (behindOpcode f) op = m.conclude attempt →
      ∃ g m', attempt = .ok (g, m') ∧ m.step host f = .running g m' := by
    intro attempt heq
    rw [hstep, heq] at h
    obtain ⟨g, m', hg⟩ := exists_of_conclude h
    refine ⟨g, m', hg, ?_⟩
    rw [hstep, heq, hg]
    rfl
  cases op with
  | nil | true | false =>
    obtain ⟨g, hg, heq⟩ := hlocal rfl
    exact ⟨[], heq ▸ carriesOut_operator hop (.inr (.inr (.inl rfl))) hg⟩
  | pop =>
    obtain ⟨g, hg, heq⟩ := hlocal rfl
    exact ⟨[], heq ▸ carriesOut_operator hop (.inr (.inr (.inr rfl))) hg⟩
  | equal | greater | less | add | subtract | multiply | divide =>
    obtain ⟨g, hg, heq⟩ := hlocal rfl
    exact ⟨[], heq ▸ carriesOut_operator hop (.inl rfl) hg⟩
  | not | negate =>
    obtain ⟨g, hg, heq⟩ := hlocal rfl
    exact ⟨[], heq ▸ carriesOut_operator hop (.inr (.inl rfl)) hg⟩
  | constant =>
    obtain ⟨g, hg, heq⟩ := hlocal rfl
    obtain ⟨k, hk⟩ := carriesOut_constant hop hg
    exact ⟨[k], heq ▸ hk⟩
  | getLocal =>
    obtain ⟨g, hg, heq⟩ := hlocal rfl
    obtain ⟨k, hk⟩ := carriesOut_getLocal hop hg
    exact ⟨[k], heq ▸ hk⟩
  | setLocal =>
    obtain ⟨g, hg, heq⟩ := hlocal rfl
    obtain ⟨k, hk⟩ := carriesOut_setLocal hop hg
    exact ⟨[k], heq ▸ hk⟩
  | jump =>
    obtain ⟨g, hg, heq⟩ := hlocal rfl
    obtain ⟨k, hk⟩ := carriesOut_forward hop hg
    exact ⟨[k], heq ▸ hk⟩
  | jumpIfFalse =>
    obtain ⟨g, hg, heq⟩ := hlocal rfl
    obtain ⟨k, hk⟩ := carriesOut_jumpIfFalse hop hg
    exact ⟨[k], heq ▸ hk⟩
  | loop =>
    obtain ⟨g, hg, heq⟩ := hlocal rfl
    obtain ⟨k, hk⟩ := carriesOut_loop hop hg
    exact ⟨[k], heq ▸ hk⟩
  | getGlobal =>
    obtain ⟨g, m', hg, heq⟩ := hwide _ rfl
    obtain ⟨k, hk⟩ := carriesOut_getGlobal hop hg
    exact ⟨[k], heq ▸ hk⟩
  | defineGlobal =>
    obtain ⟨g, m', hg, heq⟩ := hwide _ rfl
    obtain ⟨k, hk⟩ := carriesOut_defineGlobal hop hg
    exact ⟨[k], heq ▸ hk⟩
  | setGlobal =>
    obtain ⟨g, m', hg, heq⟩ := hwide _ rfl
    obtain ⟨k, hk⟩ := carriesOut_setGlobal hop hg
    exact ⟨[k], heq ▸ hk⟩
  | getUpvalue =>
    obtain ⟨g, m', hg, heq⟩ := hwide _ rfl
    obtain ⟨k, hk⟩ := carriesOut_getUpvalue hop hg
    exact ⟨[k], heq ▸ hk⟩
  | setUpvalue =>
    obtain ⟨g, m', hg, heq⟩ := hwide _ rfl
    obtain ⟨k, hk⟩ := carriesOut_setUpvalue hop hg
    exact ⟨[k], heq ▸ hk⟩
  | closeUpvalue =>
    obtain ⟨g, m', hg, heq⟩ := hwide _ rfl
    exact ⟨[], heq ▸ carriesOut_closeUpvalue hop hg⟩
  | closure => exact carriesOut_closure hop h
  | call =>
    have heq : m.step host f = m.call host (behindOpcode f) := hstep
    rw [heq] at h ⊢
    obtain ⟨k, hk⟩ := carriesOut_call hop h
    exact ⟨[k], hk⟩
  | «return» =>
    have heq : m.step host f = m.returnFrom (behindOpcode f) := hstep
    rw [heq] at h ⊢
    exact ⟨[], carriesOut_return hop h⟩

/-- A step that does not fail has found an opcode. -/
theorem exists_opcode (h : ¬ (m.step host f).HasFailed) :
    ∃ op : Opcode, f.chunk.code[f.ip]? = some op.toByte := by
  unfold step at h
  split at h
  · exact absurd ⟨_, _, rfl⟩ h
  · next op g hfetch =>
    obtain ⟨⟨byte, g'⟩, hbyte, hrest⟩ := Attempt.exists_of_bind hfetch
    obtain ⟨op', hop, hlast⟩ := Attempt.exists_of_bind hrest
    cases hlast
    refine ⟨op, ?_⟩
    rw [Opcode.toByte_of_ofByte (Frame.expect_ok hop)]
    exact (Frame.fetch_ok hbyte).1

/-- A step that does not fail follows the instruction that is decoded at its place, as long as a
word can count the bytes of that instruction. -/
theorem exists_decode_of_step (hlines : f.chunk.code.size ≤ f.chunk.lines.size)
    (hroom : 2 * roomAskedFor f < UInt64.size) (h : ¬ (m.step host f).HasFailed) :
    ∃ i, f.chunk.decode f.ip = .ok i ∧ f.nextOpcode? = some i.op ∧
      m.Follows f i (m.step host f) := by
  obtain ⟨op, hop⟩ := exists_opcode h
  obtain ⟨operands, hholds, hcount, hfollows⟩ := exists_carriesOut hop h
  obtain ⟨line, hdecode⟩ := Chunk.decode_of_holds hlines hholds (hcount hroom)
  refine ⟨_, hdecode, ?_, hfollows line⟩
  unfold Frame.nextOpcode?
  rw [hop]
  exact Opcode.ofByte_toByte op

/-- Where the frame has not all that a closure is to capture, no closure is made. -/
theorem hasFailed_of_not_offers {i : Instruction} (hdecode : f.chunk.decode f.ip = .ok i)
    (hlines : f.chunk.code.size ≤ f.chunk.lines.size) (hroom : 2 * roomAskedFor f < UInt64.size)
    (hop : i.op = .closure) {c : Capture} (hc : c ∈ i.captures) (hoffers : ¬ Offers f c) :
    (m.step host f).HasFailed := by
  by_contra hok
  obtain ⟨j, hj, -, hfollows⟩ := exists_decode_of_step hlines hroom hok
  obtain rfl : i = j := Except.ok.inj (hdecode.symm.trans hj)
  generalize m.step host f = p at hfollows
  cases hfollows with
  | behind closure => exact closure hop
  | target jumps =>
    unfold Instruction.Jumps at jumps
    rw [hop] at jumps
    exact jumps
  | closed _ _ _ _ offers => exact hoffers (offers c hc)
  | entered op => cases hop.symm.trans op
  | resumed op => cases hop.symm.trans op
  | finished op => cases hop.symm.trans op

theorem fetchOpcode_ok {op : Opcode} {g : Frame} (h : fetchOpcode f = .ok (op, g)) :
    g = behindOpcode f := by
  obtain ⟨⟨byte, g'⟩, hfetch, hrest⟩ := Attempt.exists_of_bind h
  obtain ⟨op', -, hlast⟩ := Attempt.exists_of_bind hrest
  cases hlast
  exact (Frame.fetch_ok hfetch).2

/-- There is room for a closure if no function in the pool captures too much. -/
theorem roomAskedFor_lt
    (hroom : ∀ g, .function g ∈ f.chunk.constants → g.captureCount < cellLimit) :
    roomAskedFor f < cellLimit := by
  unfold roomAskedFor
  split
  · next g hop =>
    split
    · next p g' hp =>
      obtain ⟨index, -, hfunction, -⟩ := Frame.fetchFunction_ok hp
      rw [fetchOpcode_ok hop] at hfunction
      exact hroom p (Array.mem_of_getElem? hfunction)
    · decide
  · decide

end Steps

end Machine

end ScriptEngine
