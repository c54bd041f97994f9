import ScriptEngine.Machine.Step
set_option autoImplicit false

/-!
# Machine: runtime errors

When a step fails, the program ends with an error: the fault, and where in each
active call the program was, innermost first.  A suspended call is at the call
instruction it is waiting for.
-/

namespace ScriptEngine

/-- Where an active call was. -/
structure TraceLine where
  /-- Absent for the script. -/
  function : Option String
  line : Nat
  deriving DecidableEq, Repr, Inhabited

namespace TraceLine

/-- Where a call of `f` is that has read its code up to `ip`. -/
def ofCall (f : Function Value) (ip : Nat) : TraceLine :=
  ⟨f.name, f.chunk.lineBefore ip⟩

/-- The line in words. -/
def toText (t : TraceLine) : String :=
  "[line " ++ Text.decimal t.line ++ "] in " ++
    match t.function with
    | some name => name ++ "()"
    | none => "script"

end TraceLine

/-- The end of a program that failed. -/
structure RuntimeError where
  fault : Fault
  /-- Innermost call first. -/
  trace : List TraceLine
  deriving DecidableEq, Repr, Inhabited

namespace RuntimeError

/-- The error of a failure in a call of `f`, which `callers` wait for. -/
def ofFailure (failure : Failure) (f : Function Value) (callers : List Frame) :
    RuntimeError :=
  ⟨failure.fault,
    .ofCall f failure.ip :: callers.map fun c => .ofCall c.function c.ip⟩

/-- The error in words, without the trace. -/
def message (e : RuntimeError) : String := e.fault.message

/-- The error in words, with a line for each call. -/
def toText (e : RuntimeError) : String :=
  String.intercalate "\n" (e.message :: e.trace.map TraceLine.toText)

end RuntimeError

end ScriptEngine
