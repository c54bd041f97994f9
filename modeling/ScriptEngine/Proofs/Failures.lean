import Mathlib
import ScriptEngine.Proofs.Machine.Failing
import ScriptEngine.Proofs.Reporting
set_option autoImplicit false

/-!
# Failures: what a program that fails leaves behind

A program that fails has changed what the instructions before the failing one changed, and
nothing else (`failure_leaves_no_trace`).  It makes no difference whether the failing
instruction is undone or whether all that it did before it broke off is kept.
-/

namespace ScriptEngine

open Machine

variable {World : Type}

/-- A native that ends in an error has changed nothing that was there before. -/
def Host.ErrsCleanly (host : Host World) : Prop :=
  ∀ native arguments store world message,
    (host.call native arguments store world).result = .error message →
      store.Spares (host.call native arguments store world).store ∧
        (host.call native arguments store world).world = world

/-- Between two programs the machine `last` has what `m` has, and no call is active. -/
structure Machine.Keeps (last m : Machine World) : Prop where
  globals : last.globals = m.globals
  cells : m.store.Spares last.store
  world : last.world = m.world
  callers : last.callers = []
  openCells : last.openCells = #[]

theorem Machine.Marred.keeps {m k : Machine World} (h : m.Marred k) : k.settle.Keeps m :=
  ⟨h.globals, h.store, h.world, rfl, rfl⟩

/-- What a native leaves when it ends in an error is marred at most. -/
theorem Host.ErrsCleanly.marred {host : Host World} (hhost : host.ErrsCleanly)
    {m k : Machine World} {f : Frame} {failure : Failure}
    (h : m.step host f = .failed failure k) : m.Marred k := by
  rcases failsBy_of_step h with rfl | ⟨native, arguments, message, -, herror, rfl⟩
  · exact .refl k
  · obtain ⟨hstore, hworld⟩ := hhost _ _ _ _ _ herror
    exact ⟨rfl, hstore, hworld, rfl⟩

/-- A script that fails does so in some step, and has changed what the steps before it have
changed.  The globals, the cells and what was written are as they were before that step, both
after the run and after the failing instruction has been carried out in place; and no call
and no open cell is left. -/
theorem failure_leaves_no_trace (s : Session World) (hhost : s.host.ErrsCleanly) (limit : Nat)
    (script : Function Value) (e : RuntimeError)
    (hraised : (s.run limit script).1.outcome = .error (.runtime e)) :
    ∃ n f m failure last, n < limit ∧
      ending s.host n s.machine (scriptFrame script) = .unfinished f m ∧
      m.stepInPlace s.host f = .failed failure last ∧
      e = .ofFailure failure f.function m.callers ∧
      last.settle.Keeps m ∧ (s.run limit script).2.machine.Keeps m := by
  obtain ⟨houtcome, hmachine⟩ := s.run_eq_ending limit script
  rw [houtcome] at hraised
  rw [hmachine]
  cases hending : ending s.host limit s.machine (scriptFrame script) with
  | returned v k =>
    rw [hending] at hraised
    cases hraised
  | unfinished f k =>
    rw [hending] at hraised
    cases hraised
  | raised e' k =>
    rw [hending] at hraised
    obtain rfl : e' = e := by
      cases hraised
      rfl
    obtain ⟨n, f, m, failure, hlt, hn, hstep, rfl⟩ := exists_of_raised hending
    have hmarred := hhost.marred hstep
    rw [hmarred.callers]
    rcases stepInPlace_cases s.host m f with hsame | ⟨failure', last, hfailed, hlast, hleft⟩
    · exact ⟨n, f, m, failure, k, hlt, hn, hsame.trans hstep, rfl, hmarred.keeps, hmarred.keeps⟩
    · obtain ⟨rfl, -⟩ := Progress.failed.inj (hfailed.symm.trans hstep)
      exact ⟨n, f, m, failure', last, hlt, hn, hlast, rfl, hleft.keeps, hmarred.keeps⟩

/-- The natives of the console write only when they succeed. -/
theorem written_of_answer (c : Console) (name : String) (arguments : List Value) :
    (∃ v, (c.answer name arguments).1 = .ok v) ∨ (c.answer name arguments).2 = c := by
  unfold Console.answer
  split
  · split
    · exact .inl ⟨_, rfl⟩
    · exact .inr rfl
  all_goals exact .inr rfl

theorem errsCleanly_console : Console.host.ErrsCleanly := by
  intro native arguments store c message herror
  refine ⟨.refl store, ?_⟩
  rcases written_of_answer c native.name arguments with ⟨v, hv⟩ | hsame
  · cases hv.symm.trans herror
  · exact hsame

/-- A script that captures a variable and defines a global, and then breaks off in the middle
of a closure: of its three cells the first is there already, the second is new, and there is
none for the third. -/
def closingMidway : Function Value :=
  ⟨2, none, 0, 0,
    ⟨#[2, 26, 0, 1, 1, 8, 1, 2, 26, 2, 1, 1, 1, 2, 0, 9, 27],
      #[1, 1, 1, 1, 1, 1, 1, 1, 1, 1, 1, 1, 1, 1, 1, 1, 1],
      #[.function (readingCell 0 1), .string "x", .function (readingCell 1 3)]⟩⟩

/-- The session that runs it. -/
def closingSession : Session Console := .start Console.host {} {} .off

/-- The machine when the fifth step of that script begins. -/
def closingMachine : Machine Console where
  openCells := #[⟨⟨0, 1⟩, ⟨0⟩⟩]
  globals := ⟨[("x", .closure ⟨0, readingCell 0 1, #[⟨0⟩]⟩)]⟩
  store := ⟨#[.boolean true], 1⟩
  world := {}

theorem raises_closingMidway : (closingSession.run 10 closingMidway).1.outcome =
    .error (.runtime ⟨.upvalueOutOfRange 9, [⟨none, 1⟩]⟩) := by
  cbv

/-- That script has made a cell and defined a global when its fifth step fails.  The failing
step in place leaves one more cell behind, and changes nothing that was there. -/
theorem failure_leaves_no_trace_closingMidway :
    (∃ n f m failure last, n < 10 ∧
      ending Console.host n closingSession.machine (scriptFrame closingMidway) =
        .unfinished f m ∧
      m.stepInPlace Console.host f = .failed failure last ∧
      (⟨.upvalueOutOfRange 9, [⟨none, 1⟩]⟩ : RuntimeError) =
        .ofFailure failure f.function m.callers ∧
      last.settle.Keeps m ∧ (closingSession.run 10 closingMidway).2.machine.Keeps m) ∧
    ∃ f failure last,
      ending Console.host 4 closingSession.machine (scriptFrame closingMidway) =
        .unfinished f closingMachine ∧
      closingMachine.stepInPlace Console.host f = .failed failure last ∧
      last.store.cells = #[.boolean true, .boolean true] := by
  refine ⟨failure_leaves_no_trace closingSession errsCleanly_console 10 closingMidway _
    raises_closingMidway, ⟨closingMidway, #[], 8,
      #[.function closingMidway, .boolean true, .boolean true]⟩, ⟨.upvalueOutOfRange 9, 16⟩,
    { closingMachine with
      openCells := #[⟨⟨0, 1⟩, ⟨0⟩⟩, ⟨⟨0, 2⟩, ⟨1⟩⟩]
      store := ⟨#[.boolean true, .boolean true], 1⟩ }, ?_, ?_, rfl⟩
  · cbv
  · cbv

end ScriptEngine
