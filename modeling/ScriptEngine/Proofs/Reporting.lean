import ScriptEngine.Proofs.Isolation
set_option autoImplicit false

/-!
# Sessions: reports change nothing

A session lists code, traces steps and counts opcodes if it is asked to.  All of that is made
from what compiling and running show of themselves.  So two sessions that differ in nothing but
what they report do the same, operation after operation (`reports_change_nothing`): the code that
is listed or traced may come from a compilation or from anywhere else, and the operations may
succeed, fail or be cut short.
-/

namespace ScriptEngine

open Machine

variable {World : Type}

namespace Session

/-- What every operation answers, each with the machine that it leaves behind. -/
def transcript (s : Session World) : List Operation → List (Option Outcome × Machine World)
  | [] => []
  | op :: ops =>
      let (outcome, s) := s.perform op
      (outcome, s.machine) :: s.transcript ops

/-- The sessions differ in nothing but what they report. -/
structure SameButReports (s s' : Session World) : Prop where
  host : s'.host = s.host
  machine : s'.machine = s.machine

section SameButReports

variable {s s' : Session World}

/-- Whatever is noted about a run, its outcome and the machine after it are those of the run. -/
theorem run_eq_ending (s : Session World) (limit : Nat) (script : Function Value) :
    (s.run limit script).1.outcome =
        outcomeOf (ending s.host limit s.machine (scriptFrame script)) ∧
      (s.run limit script).2.machine =
        (ending s.host limit s.machine (scriptFrame script)).machine.settle := by
  unfold Session.run
  simp only [ending_runFor, and_self]

theorem SameButReports.run (h : s.SameButReports s') (limit : Nat) (script : Function Value) :
    (s'.run limit script).1.outcome = (s.run limit script).1.outcome ∧
      (s.run limit script).2.SameButReports (s'.run limit script).2 := by
  obtain ⟨houtcome, hmachine⟩ := s.run_eq_ending limit script
  obtain ⟨houtcome', hmachine'⟩ := s'.run_eq_ending limit script
  rw [h.host, h.machine] at houtcome' hmachine'
  exact ⟨houtcome'.trans houtcome.symm, h.host, hmachine'.trans hmachine.symm⟩

theorem SameButReports.withStore (h : s.SameButReports s') (store : Store) :
    SameButReports { s with machine := { s.machine with store } }
      { s' with machine := { s'.machine with store } } where
  host := h.host
  machine := by rw [h.machine]

theorem SameButReports.interpret (h : s.SameButReports s') (limit : Nat) (source : String) :
    (s'.interpret limit source).1.outcome = (s.interpret limit source).1.outcome ∧
      (s.interpret limit source).2.SameButReports (s'.interpret limit source).2 := by
  have hloaded : ∀ store : Store, SameButReports { s with machine := { s.machine with store } }
      { s' with machine := { s.machine with store } } := fun store => ⟨h.host, rfl⟩
  unfold Session.interpret
  rw [h.machine]
  dsimp only
  split
  · exact ⟨rfl, hloaded _⟩
  · exact (hloaded _).run limit _

/-- One step: an operation is answered in the same way, and leads to sessions that differ in
nothing but what they report again. -/
theorem SameButReports.perform (h : s.SameButReports s') (op : Operation) :
    (s'.perform op).1 = (s.perform op).1 ∧ (s.perform op).2.SameButReports (s'.perform op).2 := by
  cases op with
  | interpret limit source =>
    obtain ⟨houtcome, hafter⟩ := h.interpret limit source
    exact ⟨congrArg some houtcome, hafter⟩
  | run limit load =>
    unfold Session.perform
    rw [h.machine]
    have hloaded := h.withStore (load s.machine.store).2
    rw [h.machine] at hloaded
    obtain ⟨houtcome, hafter⟩ := hloaded.run limit (load s.machine.store).1
    exact ⟨congrArg some houtcome, hafter⟩
  | defineNative n =>
    exact ⟨rfl, h.host, congrArg (·.defineNative n) h.machine⟩
  | reset => exact ⟨rfl, h.host, congrArg forget h.machine⟩

theorem SameButReports.transcript (h : s.SameButReports s') (ops : List Operation) :
    s'.transcript ops = s.transcript ops := by
  induction ops generalizing s s' with
  | nil => rfl
  | cons op ops ih =>
    obtain ⟨houtcome, hafter⟩ := h.perform op
    simp only [Session.transcript]
    rw [ih hafter, houtcome, hafter.machine]

end SameButReports

/-- Sessions of one host go through the same, whatever their switches, levels and clocks are: every
operation has the same outcome, and leaves the same globals, cells and surroundings behind. -/
theorem reports_change_nothing (host : Host World) (world : World) (switches switches' : Switches)
    (level level' : LogLevel) (clock clock' : Nat → Duration) (ops : List Operation) :
    (start host world switches' level' clock').transcript ops =
      (start host world switches level clock).transcript ops := by
  have hsame : (start host world switches level clock).SameButReports
      (start host world switches' level' clock') := ⟨rfl, rfl⟩
  exact hsame.transcript ops

end Session

end ScriptEngine
