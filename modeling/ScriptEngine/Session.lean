import ScriptEngine.Bytecode.Listing
import ScriptEngine.Compile.Program
import ScriptEngine.Diagnostics.Log
import ScriptEngine.Diagnostics.Profile
import ScriptEngine.Machine.Run
set_option autoImplicit false

/-!
# Sessions

A session runs programs one after the other.  The global variables persist from
one program to the next, and so do the cells that they hold on to; calls and
open cells do not.

Beside its outcome, each program leaves log records, as far as the session's
switches ask for them.  They are made from what compiling and running show of
themselves and have no way back into it.
-/

namespace ScriptEngine

/-! ## Outcomes -/

/-- Why there is no value. -/
inductive ScriptError where
  /-- The source is refused. -/
  | compile (diagnostics : Array Diagnostic)
  | runtime (error : RuntimeError)
  /-- The source could not be read. -/
  | io (cause : String)
  deriving Repr, Inhabited

/-- The error in words. -/
def ScriptError.toText : ScriptError → String
  | compile diagnostics =>
      String.intercalate "\n" (diagnostics.toList.map Diagnostic.toText)
  | runtime error => error.toText
  | io cause => "I/O error: " ++ cause

/-- What became of a program. -/
inductive Outcome where
  | value (v : Value)
  | error (e : ScriptError)
  /-- The limit on the number of steps was reached. -/
  | unfinished
  deriving Inhabited

/-- The outcome, coarsely. -/
inductive Status where
  | ok | compileError | runtimeError | unfinished
  deriving DecidableEq, Repr, Inhabited

/-- The status of an outcome.  A source that cannot be read is as good as one
that is refused. -/
def Outcome.status : Outcome → Status
  | value _ => .ok
  | error (.compile _) | error (.io _) => .compileError
  | error (.runtime _) => .runtimeError
  | unfinished => .unfinished

/-- What a program leaves behind, apart from what it did to the session. -/
structure Report where
  outcome : Outcome
  log : Log := #[]
  deriving Inhabited

/-! ## Sessions -/

/-- A machine with its host, and what is to be reported. -/
structure Session (World : Type) where
  host : Host World
  machine : Machine World
  switches : Switches := {}
  /-- The least important records that are made. -/
  level : LogLevel := .off
  /-- Present if opcodes are to be counted. -/
  profile : Option Profile := none
  /-- How long the instructions take that are counted, one after the other. -/
  clock : Nat → Duration := fun _ => .zero
  /-- How many instructions have been counted. -/
  ticks : Nat := 0

namespace Session

variable {World : Type}

/-- A session in which nothing is defined. -/
def start (host : Host World) (world : World) (switches : Switches)
    (level : LogLevel) (clock : Nat → Duration := fun _ => .zero) : Session World :=
  { host, switches, level, clock
    machine := { world }
    profile := if switches.countOpcodes then some {} else none }

/-- Makes natives and defines them. -/
def install (s : Session World) (natives : List Signature) : Session World :=
  { s with machine := natives.foldl Machine.defineNative s.machine }

/-- Forgets all globals and all counts.  The clock goes on. -/
def reset (s : Session World) : Session World :=
  { s with machine := s.machine.forget, profile := s.profile.map fun _ => {} }

/-- The value of a global. -/
def global? (s : Session World) (name : String) : Option Value :=
  s.machine.globals.get? name

/-! ## Watching -/

/-- What is noted while a program runs. -/
structure Notes where
  log : Log := #[]
  profile : Option Profile := none
  ticks : Nat := 0

/-- The slots of a frame in a row. -/
def stackText (f : Frame) : String :=
  "          " ++
    String.join (f.slots.toList.map fun v => "[ " ++ v.toText ++ " ]")

/-- Adds records about the instruction that comes next. -/
def traceInto (s : Session World) (f : Frame) (log : Log) : Log :=
  let log :=
    if s.switches.traceStack then
      log.add s.level ⟨.trace, .machine, stackText f⟩
    else log
  if f.ip < f.chunk.code.size then
    log.add s.level ⟨.trace, .machine, (f.chunk.entryAt f.ip).text⟩
  else log

/-- Traces the instruction that comes next, if that is asked for. -/
def noteBefore (s : Session World) (f : Frame) (n : Notes) : Notes :=
  if s.switches.traceSteps && s.level.admits .trace then
    { n with log := s.traceInto f n.log }
  else n

/-- Counts the instruction that has been carried out, if that is asked for, and charges
the time that it took. -/
def noteAfter (s : Session World) (op : Option Opcode) (n : Notes) : Notes :=
  match n.profile, op with
  | some p, some op =>
      { n with profile := some (p.record op (s.clock n.ticks)), ticks := n.ticks + 1 }
  | _, _ => n

/-- What the session wants to be noted. -/
def watch (s : Session World) : Watch Notes := ⟨s.noteBefore, s.noteAfter⟩

/-! ## Programs -/

/-- The record of a profile. -/
def profileRecord (p : Profile) : LogRecord :=
  ⟨.info, .machine,
    "opcode profile (" ++ Text.decimal p.instructions ++ " instructions):\n" ++
      p.toText⟩

/-- The outcome of a run. -/
def outcomeOf : Ending World → Outcome
  | .returned v _ => .value v
  | .raised e _ => .error (.runtime e)
  | .unfinished _ _ => .unfinished

/-- Runs a function as a script, for at most `limit` steps. -/
def run (s : Session World) (limit : Nat) (script : Function Value) :
    Report × Session World :=
  let (ending, notes) :=
    s.machine.runFor s.host s.watch limit (Machine.scriptFrame script)
      { profile := s.profile, ticks := s.ticks }
  let log :=
    match notes.profile with
    | some p => notes.log.add s.level (profileRecord p)
    | none => notes.log
  (⟨outcomeOf ending, log⟩,
    { s with
      machine := ending.machine.settle, profile := notes.profile, ticks := notes.ticks })

/-- The listings of the functions that a compilation finished, if they are asked
for. -/
def listings (s : Session World) (c : Compilation) : Log :=
  if s.switches.listCode then
    c.finished.foldl
      (fun log f => log.add s.level ⟨.debug, .compiler, "\n" ++ f.function.listing⟩) #[]
  else #[]

/-- Compiles a source and runs it. -/
def interpret (s : Session World) (limit : Nat) (source : String) :
    Report × Session World :=
  let compilation := compile s.machine.store.nextId source
  let log := s.listings compilation
  let store := { s.machine.store with nextId := compilation.nextId }
  let s := { s with machine := { s.machine with store } }
  match compilation.outcome with
  | .error diagnostics => (⟨.error (.compile diagnostics), log⟩, s)
  | .ok script =>
      let (report, s) := s.run limit script
      ({ report with log := log ++ report.log }, s)

end Session

end ScriptEngine
