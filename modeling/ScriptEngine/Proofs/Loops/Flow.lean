import ScriptEngine.Proofs.Layout
set_option autoImplicit false

/-!
# Flows

What code does, apart from where its bytes stand, how its constants are numbered and in which
order its function captures variables (`Flow`).  `Flow.IsCode` says which bytes are code of a flow.
The code of a loop whose body is done in two parts may have them in either order: the second part
may stand before the first one, is then jumped over at first, and is reached from the end of the
first one.

A captured variable is known by the function that owns it and by its slot there (`Home`), so that
functions with other captures can still capture the same variables.
-/

namespace ScriptEngine

/-! ## Captured variables -/

/-- A variable that some function captures: how many functions are around the one that owns it, and
its slot in the frames of that one. -/
structure Home where
  level : Nat
  slot : Nat
  deriving DecidableEq, Repr, Inhabited

/-- What a capture of a function with `level` functions around it refers to, where `homes` are the
captures of the innermost one of these. -/
def Capture.home (level : Nat) (homes : List Home) (c : Capture) : Home :=
  if c.isLocal then ⟨level, c.index⟩ else homes[c.index]?.getD default

/-- Captures refer to the same variables when more are captured around. -/
theorem Capture.home_of_longer {level : Nat} {homes homes' : List Home} {c : Capture}
    (hlonger : homes <+: homes') (hwithin : c.isLocal = false → c.index < homes.length) :
    c.home level homes' = c.home level homes := by
  unfold home
  split
  · rfl
  · next hlocal =>
    obtain ⟨more, rfl⟩ := hlonger
    rw [List.getElem?_append_left (hwithin (by simpa using hlocal))]

/-! ## Kinds of instructions -/

namespace Opcode

/-- The opcodes that leave the frame at the next instruction, and need neither constants nor
captures. -/
def isDirect : Opcode → Bool
  | .nil | .true | .false | .pop | .getLocal | .setLocal | .equal | .greater | .less | .add
  | .subtract | .multiply | .divide | .not | .negate | .closeUpvalue | .call | .return => Bool.true
  | _ => Bool.false

/-- The opcodes with a constant that is no function. -/
def isPooled : Opcode → Bool
  | .constant | .getGlobal | .setGlobal | .defineGlobal => Bool.true
  | _ => Bool.false

/-- The opcodes with a captured variable. -/
def isCapturing : Opcode → Bool
  | .getUpvalue | .setUpvalue => Bool.true
  | _ => Bool.false

end Opcode

/-! ## Flows -/

/-- What code does. -/
inductive Flow where
  | nil
  | seq (first second : Flow)
  | direct (op : Opcode) (operands : List UInt8)
  | pooled (op : Opcode) (v : Value)
  | captured (op : Opcode) (h : Home)
  /-- A closure of a function that captures `homes`. -/
  | closure (id : Identity) (name : String) (arity : Nat) (homes : List Home) (body : Flow)
  /-- One of two flows, by the condition on the stack. -/
  | split (yes no : Flow)
  /-- While a condition holds, it is dropped and a flow follows.  At the end it is dropped as
  well. -/
  | loop (condition body : Flow)
  | forever (body : Flow)
  /-- What there is no code for. -/
  | absent
  deriving Inhabited

namespace Flow

/-- One flow after another one. -/
protected def append (a b : Flow) : Flow :=
  match a, b with
  | nil, b => b
  | a, nil => a
  | a, b => seq a b

instance : Append Flow := ⟨Flow.append⟩

@[simp] theorem nil_append (a : Flow) : nil ++ a = a := rfl

@[simp] theorem append_nil (a : Flow) : a ++ nil = a := by cases a <;> rfl

theorem append_eq (a b : Flow) : a ++ b = seq a b ∨ a = nil ∨ b = nil := by
  cases a <;> cases b <;>
    first | exact .inl rfl | exact .inr (.inl rfl) | exact .inr (.inr rfl)

/-- Instructions without operands. -/
def plain : List Opcode → Flow
  | [] => nil
  | op :: ops => direct op [] ++ plain ops

/-! ## What is ahead -/

end Flow

/-- What the code of a call has ahead, unrolled up to the ends of loops. -/
inductive Course where
  | done
  /-- A single instruction. -/
  | act (a : Flow) (rest : Course)
  | test (yes no : Course)
  /-- A loop starts again. -/
  | again (a : Flow) (rest : Course)

namespace Flow

/-- What is ahead at the start of a flow with something behind it. -/
def before : Flow → Course → Course
  | nil, rest => rest
  | seq a b, rest => a.before (b.before rest)
  | split a b, rest => .test (a.before rest) (b.before rest)
  | loop c b, rest =>
      c.before (.test (.act (direct .pop []) (b.before (.again (loop c b) rest)))
        (.act (direct .pop []) rest))
  | forever b, rest => b.before (.again (forever b) rest)
  | a, rest => .act a rest

theorem before_append (a b : Flow) (rest : Course) :
    (a ++ b).before rest = a.before (b.before rest) := by
  rcases append_eq a b with heq | rfl | rfl
  · rw [heq]
    rfl
  · rfl
  · rw [append_nil]
    rfl

/-- The flow is a single instruction. -/
def isSingle : Flow → Bool
  | direct .. | pooled .. | captured .. | closure .. => true
  | _ => false

/-- The flow is a return. -/
def isReturn : Flow → Bool
  | direct .return [] => true
  | _ => false

/-- The last instruction is a return, where `earlier` says so of what is written before. -/
def endsInReturn : Flow → Bool → Bool
  | nil, earlier => earlier
  | seq a b, earlier => b.endsInReturn (a.endsInReturn earlier)
  | a, _ => a.isReturn

theorem endsInReturn_append (a b : Flow) (earlier : Bool) :
    (a ++ b).endsInReturn earlier = b.endsInReturn (a.endsInReturn earlier) := by
  rcases append_eq a b with heq | rfl | rfl
  · rw [heq]
    rfl
  · rfl
  · rw [append_nil]
    rfl

/-- The body of a function, which returns `nil` where it does not return by itself. -/
def finish (a : Flow) : Flow :=
  if a.endsInReturn false then a else a ++ plain [.nil, .return]

end Flow

/-- Whatever is done, a return is ahead. -/
def Course.Ends : Course → Prop
  | done => False
  | act a rest => a.isReturn = true ∨ rest.Ends
  | test yes no => yes.Ends ∧ no.Ends
  | again _ rest => rest.Ends

namespace Flow

theorem ends_before (a : Flow) {rest : Course} (h : rest.Ends) : (a.before rest).Ends := by
  induction a generalizing rest with
  | nil => exact h
  | seq a b iha ihb => exact iha (ihb h)
  | split a b iha ihb => exact ⟨iha h, ihb h⟩
  | loop c b ihc ihb => exact ihc ⟨.inr (ihb h), .inr h⟩
  | forever b ih => exact ih h
  | _ => exact .inr h

/-- A flow without instructions changes nothing about the last one; any other flow decides. -/
theorem endsInReturn_cases (a : Flow) :
    (∀ earlier, a.endsInReturn earlier = earlier) ∨
      ∀ earlier, a.endsInReturn earlier = a.endsInReturn false := by
  induction a with
  | nil => exact .inl fun _ => rfl
  | seq a b iha ihb =>
    rcases ihb with hb | hb
    · refine iha.imp (fun ha earlier => (hb _).trans (ha earlier)) fun ha earlier => ?_
      exact (hb _).trans ((ha earlier).trans (hb _).symm)
    · exact .inr fun earlier => (hb _).trans (hb _).symm
  | _ => exact .inr fun _ => rfl

theorem ends_of_endsInReturn {a : Flow} (h : a.endsInReturn false = true) (rest : Course) :
    (a.before rest).Ends := by
  induction a generalizing rest with
  | nil => cases h
  | seq a b iha ihb =>
    change b.endsInReturn (a.endsInReturn false) = true at h
    rcases endsInReturn_cases b with hb | hb
    · exact iha ((hb _).symm.trans h) _
    · exact ends_before a (ihb ((hb _).symm.trans h) rest)
  | direct op operands => exact .inl h
  | _ => cases h

/-- The body of a function always returns. -/
theorem ends_finish (a : Flow) : (a.finish.before .done).Ends := by
  unfold finish
  split
  · next h => exact ends_of_endsInReturn h _
  · rw [before_append]
    exact ends_before a (.inr (.inl rfl))

/-! ## Code -/

/-- The bytes are code of a flow.  They find their constants in a pool and belong to a function
that captures `homes` and has `level` functions around it. -/
inductive IsCode : Array Value → Nat → List Home → Flow → List UInt8 → Prop where
  | nil {pool : Array Value} {level : Nat} {homes : List Home} : IsCode pool level homes .nil []
  | seq {pool : Array Value} {level : Nat} {homes : List Home} {a b : Flow} {as bs : List UInt8}
      (first : IsCode pool level homes a as) (second : IsCode pool level homes b bs) :
      IsCode pool level homes (.seq a b) (as ++ bs)
  | direct {pool : Array Value} {level : Nat} {homes : List Home} {op : Opcode}
      {operands : List UInt8} (kind : op.isDirect = true)
      (count : operands.length = op.operandBytes) :
      IsCode pool level homes (.direct op operands) (op.toByte :: operands)
  | pooled {pool : Array Value} {level : Nat} {homes : List Home} {op : Opcode} {v : Value}
      {k : UInt8} (kind : op.isPooled = true) (literal : v.isLiteral = true)
      (constant : pool[k.toNat]? = some v) : IsCode pool level homes (.pooled op v) [op.toByte, k]
  | captured {pool : Array Value} {level : Nat} {homes : List Home} {op : Opcode} {h : Home}
      {k : UInt8} (kind : op.isCapturing = true) (index : homes[k.toNat]? = some h) :
      IsCode pool level homes (.captured op h) [op.toByte, k]
  | closure {pool : Array Value} {level : Nat} {homes captured : List Home} {k : UInt8}
      {pairs : List UInt8} {g : Function Value} {name : String} {body : Flow}
      (constant : pool[k.toNat]? = some (.function g)) (title : g.name = some name)
      (count : pairs.length = 2 * g.captureCount) (word : pairs.length < UInt64.size)
      (within : ∀ c ∈ Instruction.capturesOf pairs, c.isLocal = false → c.index < homes.length)
      (captures : ∀ h, h ∈ (Instruction.capturesOf pairs).map (Capture.home level homes) ↔
        h ∈ captured)
      (ends : (body.before .done).Ends)
      (inside : IsCode g.chunk.constants (level + 1)
        ((Instruction.capturesOf pairs).map (Capture.home level homes)) body g.chunk.code.toList) :
      IsCode pool level homes (.closure g.id name g.arity captured body)
        (Opcode.closure.toByte :: k :: pairs)
  | split {pool : Array Value} {level : Nat} {homes : List Home} {a b : Flow} {as bs : List UInt8}
      {past out : UInt8} (yes : IsCode pool level homes a as) (no : IsCode pool level homes b bs)
      (pastYes : past.toNat = as.length + 2) (pastNo : out.toNat = bs.length) :
      IsCode pool level homes (.split a b)
        ([Opcode.jumpIfFalse.toByte, past] ++ as ++ [Opcode.jump.toByte, out] ++ bs)
  /-- Where nothing is to be done otherwise, nothing has to be jumped over. -/
  | skip {pool : Array Value} {level : Nat} {homes : List Home} {a : Flow} {as : List UInt8}
      {past : UInt8} (yes : IsCode pool level homes a as) (pastYes : past.toNat = as.length) :
      IsCode pool level homes (.split a .nil) ([Opcode.jumpIfFalse.toByte, past] ++ as)
  | loop {pool : Array Value} {level : Nat} {homes : List Home} {c b : Flow} {cs bs : List UInt8}
      {past back : UInt8} (condition : IsCode pool level homes c cs)
      (body : IsCode pool level homes b bs) (pastBody : past.toNat = bs.length + 3)
      (toStart : back.toNat = cs.length + bs.length + 5) :
      IsCode pool level homes (.loop c b)
        (cs ++ [Opcode.jumpIfFalse.toByte, past, Opcode.pop.toByte] ++ bs ++
          [Opcode.loop.toByte, back, Opcode.pop.toByte])
  /-- The second part of the body stands before the first one. -/
  | loopAround {pool : Array Value} {level : Nat} {homes : List Home} {c b i : Flow}
      {cs bs is : List UInt8} {past beyond back again : UInt8}
      (condition : IsCode pool level homes c cs) (body : IsCode pool level homes b bs)
      (step : IsCode pool level homes i is) (pastBody : past.toNat = is.length + bs.length + 7)
      (overStep : beyond.toNat = is.length + 2) (toStart : back.toNat = cs.length + is.length + 7)
      (toStep : again.toNat = is.length + bs.length + 4) :
      IsCode pool level homes (.loop c (b ++ i))
        (cs ++ [Opcode.jumpIfFalse.toByte, past, Opcode.pop.toByte, Opcode.jump.toByte, beyond] ++
          is ++ [Opcode.loop.toByte, back] ++ bs ++
          [Opcode.loop.toByte, again, Opcode.pop.toByte])
  | forever {pool : Array Value} {level : Nat} {homes : List Home} {b : Flow} {bs : List UInt8}
      {back : UInt8} (body : IsCode pool level homes b bs) (toStart : back.toNat = bs.length + 2) :
      IsCode pool level homes (.forever b) (bs ++ [Opcode.loop.toByte, back])
  | foreverAround {pool : Array Value} {level : Nat} {homes : List Home} {b i : Flow}
      {bs is : List UInt8} {beyond back again : UInt8} (body : IsCode pool level homes b bs)
      (step : IsCode pool level homes i is) (overStep : beyond.toNat = is.length + 2)
      (toStart : back.toNat = is.length + 4) (toStep : again.toNat = is.length + bs.length + 4) :
      IsCode pool level homes (.forever (b ++ i))
        ([Opcode.jump.toByte, beyond] ++ is ++ [Opcode.loop.toByte, back] ++ bs ++
          [Opcode.loop.toByte, again])

section IsCode

variable {pool pool' : Array Value} {level : Nat} {homes homes' : List Home} {a b : Flow}
  {as bs : List UInt8}

theorem isCode_nil_iff : IsCode pool level homes .nil bs ↔ bs = [] := by
  constructor
  · intro h
    cases h
    rfl
  · rintro rfl
    exact .nil

theorem IsCode.append (h : IsCode pool level homes a as) (k : IsCode pool level homes b bs) :
    IsCode pool level homes (a ++ b) (as ++ bs) := by
  rcases append_eq a b with heq | rfl | rfl
  · rw [heq]
    exact .seq h k
  · obtain rfl := isCode_nil_iff.mp h
    exact k
  · obtain rfl := isCode_nil_iff.mp k
    rwa [List.append_nil, append_nil]

theorem isCode_plain {ops : List Opcode}
    (hops : ∀ op ∈ ops, op.isDirect = true ∧ op.operandBytes = 0) :
    IsCode pool level homes (plain ops) (ops.map Opcode.toByte) := by
  induction ops with
  | nil => exact .nil
  | cons op ops ih =>
    obtain ⟨⟨hop, hcount⟩, hrest⟩ := List.forall_mem_cons.mp hops
    have hfirst : IsCode pool level homes (direct op []) [op.toByte] := .direct hop hcount.symm
    exact hfirst.append (ih hrest)

/-- Code stays code when constants and captures are added. -/
theorem IsCode.mono (h : IsCode pool level homes a as)
    (hpool : ∀ (k : Nat) (v : Value), pool[k]? = some v → pool'[k]? = some v)
    (hlonger : homes <+: homes') : IsCode pool' level homes' a as := by
  induction h with
  | nil => exact .nil
  | seq _ _ ih ih' => exact .seq (ih hpool hlonger) (ih' hpool hlonger)
  | direct kind count => exact .direct kind count
  | pooled kind literal constant => exact .pooled kind literal (hpool _ _ constant)
  | captured kind index =>
    obtain ⟨more, rfl⟩ := hlonger
    refine .captured kind ?_
    rw [List.getElem?_append_left (List.getElem?_eq_some_iff.mp index).1, index]
  | @closure _ level homes _ _ pairs _ _ _ constant title count word within captures ends inside =>
    have hmap : (Instruction.capturesOf pairs).map (Capture.home level homes') =
        (Instruction.capturesOf pairs).map (Capture.home level homes) :=
      List.map_congr_left fun c hc => Capture.home_of_longer hlonger (within c hc)
    refine .closure (hpool _ _ constant) title count word
      (fun c hc hlocal => Nat.lt_of_lt_of_le (within c hc hlocal) hlonger.length_le) ?_ ends ?_
    · rwa [hmap]
    · rwa [hmap]
  | split _ _ pastYes pastNo ih ih' =>
    exact .split (ih hpool hlonger) (ih' hpool hlonger) pastYes pastNo
  | skip _ pastYes ih => exact .skip (ih hpool hlonger) pastYes
  | loop _ _ pastBody toStart ih ih' =>
    exact .loop (ih hpool hlonger) (ih' hpool hlonger) pastBody toStart
  | loopAround _ _ _ pastBody overStep toStart toStep ih ih' ih'' =>
    exact .loopAround (ih hpool hlonger) (ih' hpool hlonger) (ih'' hpool hlonger) pastBody overStep
      toStart toStep
  | forever _ toStart ih => exact .forever (ih hpool hlonger) toStart
  | foreverAround _ _ overStep toStart toStep ih ih' =>
    exact .foreverAround (ih hpool hlonger) (ih' hpool hlonger) overStep toStart toStep

end IsCode

end Flow

end ScriptEngine
