import ScriptEngine.Compile.State
set_option autoImplicit false

/-!
# Compilation: scopes and names

A variable that is declared outside all scopes is global and is known by its
name, which is a constant.  Any other variable is a local and is known by its
slot: declaring one writes no code, because its value is already where the slot
will be.

A name refers to the newest local of the current function that bears it, else to
one of a function around it, else to a global (`resolve`).
-/

namespace ScriptEngine.Compile.State

/-! ## Scopes -/

/-- Opens a scope. -/
def openScope (s : State) : State :=
  { s with builder := { s.builder with depth := s.builder.depth + 1 } }

/-- Closes the innermost scope and retires the locals that do not outlive it,
newest first.  After that the frame holds the locals that are left and no other
value. -/
def closeScope (s : State) : State :=
  let s := s.guarantee (0 < s.builder.depth) .scopeUnderflow
  let depth := s.builder.depth - 1
  let retired := s.builder.locals.takeWhile fun l => !l.outlives depth
  let kept := s.builder.locals.dropWhile fun l => !l.outlives depth
  let s := s.guarantee (!kept.isEmpty) .calleeRetired
  let s := { s with builder := { s.builder with depth := depth, locals := kept } }
  (retired.foldl (fun s l => s.appendOp l.retirement) s).checkpoint

/-- Compiles `inside` in a scope of its own. -/
def inScope (inside : State → State) (s : State) : State :=
  (inside s.openScope).closeScope

/-! ## Declarations -/

/-- Adds a local that cannot be read yet. -/
def pushLocal (s : State) (name : String) : State :=
  if s.builder.locals.length = byteRange then s.complain .tooManyLocals
  else
    { s with
      builder :=
        { s.builder with locals := ⟨name, none, false⟩ :: s.builder.locals } }

/-- The innermost scope has a local with this name. -/
def declaresHere (s : State) (name : String) : Bool :=
  (s.builder.locals.takeWhile fun l => !l.isOutside s.builder.depth).any
    fun l => l.name == name

/-- Declares the name that was read last, unless it is global. -/
def declareLocal (s : State) : State :=
  if s.builder.depth = 0 then s
  else
    let name := s.previous.lexeme
    let s := if s.declaresHere name then s.complain .redeclared else s
    s.pushLocal name

/-- Reads and declares a name.  Gives its constant if it is global. -/
def declareName (s : State) (what : Expected) : Nat × State :=
  let s := (s.require .identifier what).declareLocal
  if s.builder.depth = 0 then s.poolConstant (.string s.previous.lexeme)
  else (0, s)

/-- Lets the newest local be read from now on. -/
def makeReadable (s : State) : State :=
  match s.builder.depth, s.builder.locals with
  | 0, _ | _, [] => s
  | depth, l :: older =>
      let l := { l with depth := some depth }
      { s with builder := { s.builder with locals := l :: older } }

/-- Gives the variable that was declared the value on the top. -/
def bindName (s : State) (global : Nat) : State :=
  if s.builder.depth = 0 then s.appendWith .defineGlobal global
  else s.makeReadable

/-! ## Uses -/

/-- What a name refers to. -/
inductive Place where
  | slot (index : Nat)
  | captured (index : Nat)
  | global (constant : Nat)
  deriving DecidableEq, Repr, Inhabited

namespace Place

/-- The operand of the instructions that read and write the place. -/
def operand : Place → Nat
  | slot i | captured i | global i => i

/-- The instruction that reads the place. -/
def getOp : Place → Opcode
  | slot _ => .getLocal
  | captured _ => .getUpvalue
  | global _ => .getGlobal

/-- The instruction that writes the place. -/
def setOp : Place → Opcode
  | slot _ => .setLocal
  | captured _ => .setUpvalue
  | global _ => .setGlobal

end Place

/-- Looks for a name in the functions around the current one. -/
def resolveAround (s : State) (name : String) : Option (Nat × State) :=
  (captureFrom name s.builder s.around).map fun found =>
    let s := { s with builder := found.inner, around := found.around }
    (found.index, if found.isFull then s.complain .tooManyCaptures else s)

/-- What a name refers to at this point of the source. -/
def resolve (s : State) (name : String) : Place × State :=
  match slotOf? name s.builder.locals with
  | some (slot, l) =>
      (.slot slot,
        if l.depth.isNone then s.complain .readInOwnInitializer else s)
  | none =>
      match s.resolveAround name with
      | some (index, s) => (.captured index, s)
      | none =>
          let (index, s) := s.poolConstant (.string name)
          (.global index, s)

end ScriptEngine.Compile.State
