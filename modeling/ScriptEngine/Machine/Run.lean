import ScriptEngine.Machine.RuntimeError
set_option autoImplicit false

/-!
# Machine: runs

A run is step after step until the program finishes or fails.  Since a program
may go on for ever, a run has a limit on the number of steps.

A run can be watched: `Watch` says what is noted before each step and after each
one that succeeded.  What is noted never flows back, so watching changes nothing
of where a run leads (`ending_runFor`).
-/

namespace ScriptEngine

/-- Where a run leads. -/
inductive Ending (World : Type) where
  | returned (value : Value) (machine : Machine World)
  | raised (error : RuntimeError) (machine : Machine World)
  /-- The limit was reached. -/
  | unfinished (frame : Frame) (machine : Machine World)

/-- What to note about the steps of a run. -/
structure Watch (Notes : Type) where
  /-- Before a step, from the frame that is running. -/
  before : Frame → Notes → Notes
  /-- After a step that succeeded, from the opcode that it carried out. -/
  after : Option Opcode → Notes → Notes

/-- Notes nothing. -/
def Watch.none : Watch Unit := ⟨fun _ _ => (), fun _ _ => ()⟩

namespace Machine

variable {World Notes : Type}

/-- Runs for at most `limit` steps. -/
def runFor (host : Host World) (watch : Watch Notes) :
    Nat → Machine World → Frame → Notes → Ending World × Notes
  | 0, m, f, notes => (.unfinished f m, notes)
  | limit + 1, m, f, notes =>
      let notes := watch.before f notes
      let op := f.nextOpcode?
      let function := f.function
      match m.step host f with
      | .running f m => runFor host watch limit m f (watch.after op notes)
      | .finished value m => (.returned value m, watch.after op notes)
      | .failed failure m =>
          (.raised (.ofFailure failure function m.callers) m, notes)

/-- Where at most `limit` steps lead. -/
def ending (host : Host World) (limit : Nat) (m : Machine World) (f : Frame) :
    Ending World :=
  (runFor host Watch.none limit m f ()).1

theorem ending_runFor (host : Host World) (watch : Watch Notes) (limit : Nat)
    (m : Machine World) (f : Frame) (notes : Notes) :
    (runFor host watch limit m f notes).1 = ending host limit m f := by
  unfold ending
  induction limit generalizing m f notes with
  | zero => rfl
  | succ limit ih =>
    simp only [runFor]
    split
    · rw [ih]
    · rfl
    · rfl

/-! ## Programs -/

/-- The frame that a script starts in. -/
def scriptFrame (script : Function Value) : Frame :=
  { function := script, cells := #[], slots := #[.function script] }

/-- The machine between two programs, with no call active. -/
def settle (m : Machine World) : Machine World :=
  { m with callers := [], openCells := #[] }

/-- The machine with nothing defined. -/
def forget (m : Machine World) : Machine World :=
  { m.settle with globals := {} }

/-- Makes a native function and defines it under its name. -/
def defineNative (m : Machine World) (s : Signature) : Machine World :=
  let (native, store) := s.make m.store
  { m with store, globals := m.globals.define native.name (.native native) }

end Machine

namespace Ending

variable {World : Type}

/-- The machine at the end of a run. -/
def machine : Ending World → Machine World
  | returned _ m | raised _ m | unfinished _ m => m

end Ending

end ScriptEngine
