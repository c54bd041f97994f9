import ScriptEngine.Bytecode.Opcode
import ScriptEngine.Proofs.Tree.Syntax
import ScriptEngine.Proofs.Tree.Meaning
set_option autoImplicit false

/-!
# Code of program trees

Which bytes are code of a tree (`Expression.IsCode`, `Statement.IsCode`).  Jumps count
from where they stand, so that code means the same wherever it is put; constants are
looked up in a pool, and variables among the names in scope.

The names in scope stand in the blocks that they belong to, innermost first and newest
first in each of them, as the compiler declares them.  Outside all blocks there are
none, and a declaration makes a global.
-/

namespace ScriptEngine.Tree

/-! ## Names in scope -/

/-- The slot of the newest local with a name.  Slot 0 is the callee's. -/
def slotIn? (x : String) : List String → Option Nat
  | [] => none
  | y :: older => if y = x then some (older.length + 1) else slotIn? x older

/-- Adds names to the innermost block, if there is one. -/
def bind (names : List String) : List (List String) → List (List String)
  | [] => []
  | scope :: outer => (names ++ scope) :: outer

theorem bind_nil (scopes : List (List String)) : bind [] scopes = scopes := by
  cases scopes <;> rfl

theorem bind_append (new old : List String) (scopes : List (List String)) :
    bind (new ++ old) scopes = bind new (bind old scopes) := by
  cases scopes with
  | nil => rfl
  | cons scope outer => exact congrArg (· :: outer) (List.append_assoc new old scope)

variable (pool : Array Value)

/-! ## Expressions -/

/-- The code reads or writes a variable. -/
def AccessCode (names : List String) (onSlot onGlobal : Opcode) (x : String)
    (bytes : List UInt8) : Prop :=
  match slotIn? x names with
  | some slot => ∃ k : UInt8, k.toNat = slot ∧ bytes = [onSlot.toByte, k]
  | none => ∃ k : UInt8, pool[k.toNat]? = some (.string x) ∧ bytes = [onGlobal.toByte, k]

/-- The code pushes a literal. -/
def Literal.IsCode : Literal → List UInt8 → Prop
  | boolean true, bytes => bytes = [Opcode.true.toByte]
  | boolean false, bytes => bytes = [Opcode.false.toByte]
  | nil, bytes => bytes = [Opcode.nil.toByte]
  | l, bytes => ∃ k : UInt8, pool[k.toNat]? = some l.value ∧ bytes = [Opcode.constant.toByte, k]

mutual

/-- The code pushes the value of an expression. -/
def Expression.IsCode (names : List String) : Expression → List UInt8 → Prop
  | .literal l, bytes => l.IsCode pool bytes
  | .name x, bytes => AccessCode pool names .getLocal .getGlobal x bytes
  | .assign x e, bytes => ∃ value access, e.IsCode names value ∧
      AccessCode pool names .setLocal .setGlobal x access ∧ bytes = value ++ access
  | .unary op e, bytes => ∃ operand, e.IsCode names operand ∧
      bytes = operand ++ [op.code.toByte]
  | .binary op l r, bytes => ∃ left right, l.IsCode names left ∧ r.IsCode names right ∧
      bytes = left ++ right ++ op.code.map Opcode.toByte
  | .and l r, bytes => ∃ left right, ∃ d : UInt8, l.IsCode names left ∧
      r.IsCode names right ∧ d.toNat = right.length + 1 ∧
      bytes = left ++ [Opcode.jumpIfFalse.toByte, d, Opcode.pop.toByte] ++ right
  | .or l r, bytes => ∃ left right, ∃ d : UInt8, l.IsCode names left ∧
      r.IsCode names right ∧ d.toNat = right.length + 1 ∧
      bytes = left ++ [Opcode.jumpIfFalse.toByte, 2, Opcode.jump.toByte, d,
        Opcode.pop.toByte] ++ right
  | .call callee es, bytes => ∃ first rest, ∃ n : UInt8, callee.IsCode names first ∧
      ArgumentsCode names es rest ∧ n.toNat = es.length ∧
      bytes = first ++ rest ++ [Opcode.call.toByte, n]
termination_by structural e => e

/-- The code pushes the values of expressions. -/
def ArgumentsCode (names : List String) : List Expression → List UInt8 → Prop
  | [], bytes => bytes = []
  | e :: es, bytes => ∃ first rest, e.IsCode names first ∧ ArgumentsCode names es rest ∧
      bytes = first ++ rest
termination_by structural es => es

end

/-! ## Declarations -/

/-- The code gives a new variable the value on the top.  A local is where that value
is. -/
def BindCode (scopes : List (List String)) (x : String) (bytes : List UInt8) : Prop :=
  match scopes with
  | [] => ∃ k : UInt8, pool[k.toNat]? = some (.string x) ∧
      bytes = [Opcode.defineGlobal.toByte, k]
  | _ => bytes = []

/-- The code declares a variable. -/
def VarCode (scopes : List (List String)) (x : String) (value : Option Expression)
    (bytes : List UInt8) : Prop :=
  ∃ first rest, (match value with
    | none => first = [Opcode.nil.toByte]
    | some e => e.IsCode pool scopes.flatten first) ∧
    BindCode pool scopes x rest ∧ bytes = first ++ rest

/-- The code of what a counted loop does first. -/
def Initializer.IsCode (scopes : List (List String)) : Initializer → List UInt8 → Prop
  | none, bytes => bytes = []
  | var x value, bytes => VarCode pool scopes x value bytes
  | expression e, bytes => ∃ value, e.IsCode pool scopes.flatten value ∧
      bytes = value ++ [Opcode.pop.toByte]

/-! ## Loops -/

/-- The code goes on if a condition holds, and else to a place that is `exit` bytes
behind it. -/
def HeadCode (names : List String) (exit : Nat) : Option Expression → List UInt8 → Prop
  | none, bytes => bytes = []
  | some c, bytes => ∃ condition, ∃ d : UInt8, c.IsCode pool names condition ∧
      d.toNat = exit + 1 ∧
      bytes = condition ++ [Opcode.jumpIfFalse.toByte, d, Opcode.pop.toByte]

/-- The code of the increment, which is jumped over at first and from which the loop
goes to its head, that is `head` bytes long. -/
def StepCode (names : List String) (head : Nat) : Option Expression → List UInt8 → Prop
  | none, bytes => bytes = []
  | some e, bytes => ∃ increment, ∃ past back : UInt8, e.IsCode pool names increment ∧
      past.toNat = increment.length + 3 ∧ back.toNat = head + increment.length + 5 ∧
      bytes = [Opcode.jump.toByte, past] ++ increment ++
        [Opcode.pop.toByte, Opcode.loop.toByte, back]

/-- How far the end of the body is behind the place where the loop goes on. -/
def backDistance (head step body : Nat) : Option Expression → Nat
  | none => head + body + 2
  | some _ => step + body

/-- What is behind a loop that was left because its condition did not hold. -/
def leaveCode : Option Expression → List UInt8
  | none => []
  | some _ => [Opcode.pop.toByte]

/-- The code of a loop with the code of its body. -/
def LoopCode (names : List String) (condition increment : Option Expression)
    (body bytes : List UInt8) : Prop :=
  ∃ head step, ∃ d : UInt8,
    HeadCode pool names (step.length + body.length + 2) condition head ∧
    StepCode pool names head.length increment step ∧
    d.toNat = backDistance head.length step.length body.length increment ∧
    bytes = head ++ step ++ body ++ [Opcode.loop.toByte, d] ++ leaveCode condition

/-! ## Statements -/

/-- Code that takes values away. -/
def pops (n : Nat) : List UInt8 := List.replicate n Opcode.pop.toByte

/-- Code with some property, and behind it code that takes away what it leaves. -/
def Retiring (inside : List UInt8 → Prop) (n : Nat) (bytes : List UInt8) : Prop :=
  ∃ code, inside code ∧ bytes = code ++ pops n

mutual

/-- The code does what a statement means. -/
def Statement.IsCode (scopes : List (List String)) : Statement → List UInt8 → Prop
  | .var x value, bytes => VarCode pool scopes x value bytes
  | .block body, bytes =>
      Retiring (BodyCode ([] :: scopes) body) (declared body).length bytes
  | .branch c body none, bytes => ∃ condition inside, ∃ past out : UInt8,
      c.IsCode pool scopes.flatten condition ∧
      Retiring (BodyCode ([] :: scopes) body) (declared body).length inside ∧
      past.toNat = inside.length + 3 ∧ out.toNat = 1 ∧
      bytes = condition ++ [Opcode.jumpIfFalse.toByte, past, Opcode.pop.toByte] ++ inside ++
        [Opcode.jump.toByte, out, Opcode.pop.toByte]
  | .branch c body (some other), bytes => ∃ condition inside alternative, ∃ past out : UInt8,
      c.IsCode pool scopes.flatten condition ∧
      Retiring (BodyCode ([] :: scopes) body) (declared body).length inside ∧
      Retiring (BodyCode ([] :: scopes) other) (declared other).length alternative ∧
      past.toNat = inside.length + 3 ∧ out.toNat = alternative.length + 1 ∧
      bytes = condition ++ [Opcode.jumpIfFalse.toByte, past, Opcode.pop.toByte] ++ inside ++
        [Opcode.jump.toByte, out, Opcode.pop.toByte] ++ alternative
  | .loop c body, bytes => ∃ inside,
      Retiring (BodyCode ([] :: scopes) body) (declared body).length inside ∧
      LoopCode pool scopes.flatten (some c) none inside bytes
  | .count first c increment body, bytes => ∃ start inside loop,
      first.IsCode pool ([] :: scopes) start ∧
      Retiring (BodyCode ([] :: bind first.declares ([] :: scopes)) body)
        (declared body).length inside ∧
      LoopCode pool (bind first.declares ([] :: scopes)).flatten c increment inside loop ∧
      bytes = start ++ loop ++ pops first.declares.length
  | .result e, bytes => ∃ value, e.IsCode pool scopes.flatten value ∧
      bytes = value ++ [Opcode.return.toByte]
  | .expression e, bytes => ∃ value, e.IsCode pool scopes.flatten value ∧
      bytes = value ++ [Opcode.pop.toByte]
termination_by structural s => s

/-- The code does what statements in a row mean. -/
def BodyCode (scopes : List (List String)) : List Statement → List UInt8 → Prop
  | [], bytes => bytes = []
  | s :: body, bytes => ∃ first rest, s.IsCode scopes first ∧
      BodyCode (bind s.declares scopes) body rest ∧ bytes = first ++ rest
termination_by structural body => body

end

/-- The code does what a block means. -/
abbrev BlockCode (scopes : List (List String)) (body : List Statement) :
    List UInt8 → Prop :=
  Retiring (BodyCode pool ([] :: scopes) body) (declared body).length

/-! ## Scopes without names -/

/-- The same names are in scope, and the same declarations are global. -/
structure Alike (scopes scopes' : List (List String)) : Prop where
  flatten : scopes.flatten = scopes'.flatten
  isEmpty : scopes.isEmpty = scopes'.isEmpty

theorem Alike.cons {scopes scopes' : List (List String)} (h : Alike scopes scopes')
    (scope : List String) : Alike (scope :: scopes) (scope :: scopes') :=
  ⟨by rw [List.flatten_cons, h.flatten, List.flatten_cons], rfl⟩

theorem Alike.bind {scopes scopes' : List (List String)} (h : Alike scopes scopes')
    (names : List String) : Alike (bind names scopes) (bind names scopes') := by
  have hflatten := h.flatten
  cases scopes with
  | nil =>
    cases scopes' with
    | nil => exact h
    | cons scope outer => exact absurd h.isEmpty nofun
  | cons scope outer =>
    cases scopes' with
    | nil => exact absurd h.isEmpty nofun
    | cons scope' outer' =>
      refine ⟨?_, rfl⟩
      rw [List.flatten_cons, List.flatten_cons] at hflatten
      rw [Tree.bind, Tree.bind, List.flatten_cons, List.flatten_cons, List.append_assoc, hflatten,
        List.append_assoc]

theorem bindCode_congr {scopes scopes' : List (List String)} (h : Alike scopes scopes')
    (x : String) : BindCode pool scopes x = BindCode pool scopes' x := by
  cases scopes <;> cases scopes' <;> first | rfl | exact absurd h.isEmpty nofun

theorem varCode_congr {scopes scopes' : List (List String)} (h : Alike scopes scopes')
    (x : String) (value : Option Expression) :
    VarCode pool scopes x value = VarCode pool scopes' x value := by
  unfold VarCode
  rw [h.flatten, bindCode_congr pool h]

theorem initializerCode_congr {scopes scopes' : List (List String)} (h : Alike scopes scopes')
    (first : Initializer) : first.IsCode pool scopes = first.IsCode pool scopes' := by
  cases first with
  | none => rfl
  | var x value => exact varCode_congr pool h x value
  | expression e =>
    funext bytes
    simp only [Initializer.IsCode, h.flatten]

mutual

/-- The code of a statement depends on the names in scope. -/
theorem statementCode_congr : ∀ (s : Statement) {scopes scopes' : List (List String)},
    Alike scopes scopes' → s.IsCode pool scopes = s.IsCode pool scopes'
  | .var x value, _, _, h => by
    funext bytes
    rw [Statement.IsCode, Statement.IsCode, varCode_congr pool h]
  | .block body, _, _, h => by
    have hbody := bodyCode_congr body (h.cons [])
    funext bytes
    rw [Statement.IsCode, Statement.IsCode, hbody]
  | .branch c body none, _, _, h => by
    have hbody := bodyCode_congr body (h.cons [])
    funext bytes
    rw [Statement.IsCode, Statement.IsCode, h.flatten, hbody]
  | .branch c body (some other), _, _, h => by
    have hbody := bodyCode_congr body (h.cons [])
    have hother := bodyCode_congr other (h.cons [])
    funext bytes
    rw [Statement.IsCode, Statement.IsCode, h.flatten, hbody, hother]
  | .loop c body, _, _, h => by
    have hbody := bodyCode_congr body (h.cons [])
    funext bytes
    rw [Statement.IsCode, Statement.IsCode, h.flatten, hbody]
  | .count first c increment body, _, _, h => by
    have hbody := bodyCode_congr body (((h.cons []).bind first.declares).cons [])
    funext bytes
    rw [Statement.IsCode, Statement.IsCode, initializerCode_congr pool (h.cons []),
      ((h.cons []).bind first.declares).flatten, hbody]
  | .result e, _, _, h => by
    funext bytes
    rw [Statement.IsCode, Statement.IsCode, h.flatten]
  | .expression e, _, _, h => by
    funext bytes
    rw [Statement.IsCode, Statement.IsCode, h.flatten]
termination_by structural s => s

/-- The code of statements in a row depends on the names in scope. -/
theorem bodyCode_congr : ∀ (body : List Statement) {scopes scopes' : List (List String)},
    Alike scopes scopes' → BodyCode pool scopes body = BodyCode pool scopes' body
  | [], _, _, _ => rfl
  | s :: body, _, _, h => by
    have hfirst := statementCode_congr s h
    have hrest := bodyCode_congr body (h.bind s.declares)
    funext bytes
    rw [BodyCode, BodyCode, hfirst, hrest]
termination_by structural body => body

end

end ScriptEngine.Tree
