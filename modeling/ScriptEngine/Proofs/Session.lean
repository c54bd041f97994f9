import ScriptEngine.Proofs.Machine.Reach
import ScriptEngine.Session
set_option autoImplicit false

/-!
# Sessions: what programs cannot do

A session starts with nothing but natives and then interprets one source after the
other.  Whatever these sources are, and however each of them ends, the machine
stays sound.  The code that a compiler wrote therefore never fails in a way that
only other code could (`isOwn_of_step_failed`).
-/

namespace ScriptEngine

open Machine

variable {World : Type}

namespace Session

/-- The session after it has interpreted sources, each for at most some number of
steps. -/
def after (s : Session World) (history : List (Nat × String)) : Session World :=
  history.foldl (fun s p => (s.interpret p.1 p.2).2) s

/-- A session with natives that has interpreted sources. -/
def opened (host : Host World) (world : World) (switches : Switches) (level : LogLevel)
    (natives : List Signature) (history : List (Nat × String)) : Session World :=
  ((start host world switches level).install natives).after history

/-- The source as it is compiled in the session. -/
def compiled (s : Session World) (source : String) : Compilation :=
  compile s.machine.store.nextId source

/-- The machine that a source finds once it is compiled. -/
def loaded (s : Session World) (source : String) : Machine World :=
  { s.machine with
    store := { s.machine.store with nextId := (s.compiled source).nextId } }

/-- What interpreting a source that compiles comes to. -/
theorem interpret_eq {s : Session World} {source : String} {script : Function Value}
    (h : (s.compiled source).outcome = .ok script) (limit : Nat) :
    (s.interpret limit source).1.outcome =
        outcomeOf (ending s.host limit (s.loaded source) (scriptFrame script)) ∧
      (s.interpret limit source).2.machine =
        (ending s.host limit (s.loaded source) (scriptFrame script)).machine.settle := by
  unfold compiled at h
  unfold interpret
  dsimp only
  rw [h]
  refine ⟨congrArg outcomeOf (ending_runFor ..), ?_⟩
  exact congrArg (fun e => e.machine.settle) (ending_runFor ..)

theorem interpret_refused {s : Session World} {source : String}
    {diagnostics : Array Diagnostic} (h : (s.compiled source).outcome = .error diagnostics)
    (limit : Nat) : (s.interpret limit source).2.machine = s.loaded source := by
  unfold compiled at h
  unfold interpret
  dsimp only
  rw [h]
  rfl

theorem host_interpret (s : Session World) (limit : Nat) (source : String) :
    (s.interpret limit source).2.host = s.host := by
  unfold interpret
  dsimp only
  split <;> rfl

end Session

/-! ## Sound sessions -/

section Sound

variable {L : Library} {host : Host World}

/-- A session in which all values are sound and no call is active. -/
structure Session.IsSound (L : Library) (s : Session World) : Prop where
  machine : s.machine.IsSound L s.host
  callers : s.machine.callers = []
  openCells : s.machine.openCells = #[]

/-- The script of a source that compiles can be run. -/
theorem Session.IsSound.scriptRuns {s : Session World} (hs : s.IsSound L) {source : String}
    {script : Function Value} (h : (s.compiled source).outcome = .ok script)
    (hhas : L.Has script) :
    (∃ Γ, (scriptFrame script).Runs L Γ) ∧ (s.loaded source).IsSound L s.host := by
  have hsucceeds := succeeds_of_compile h
  exact ⟨runs_scriptFrame hhas hsucceeds.arity hsucceeds.captureCount,
    hs.machine.withStore hs.machine.cells⟩

theorem Session.IsSound.interpret {s : Session World} (hs : s.IsSound L) (hL : L.IsStrict)
    {source : String}
    (hhas : ∀ script, (s.compiled source).outcome = .ok script → L.Has script) (limit : Nat) :
    (s.interpret limit source).2.IsSound L := by
  have hhost := Session.host_interpret s limit source
  cases h : (s.compiled source).outcome with
  | error diagnostics =>
    have hmachine := Session.interpret_refused h limit
    refine ⟨?_, hmachine ▸ hs.callers, hmachine ▸ hs.openCells⟩
    rw [hmachine, hhost]
    exact hs.machine.withStore hs.machine.cells
  | ok script =>
    obtain ⟨⟨Γ, hruns⟩, hloaded⟩ := hs.scriptRuns h (hhas script h)
    have hmachine := (Session.interpret_eq h limit).2
    refine ⟨?_, hmachine ▸ rfl, hmachine ▸ rfl⟩
    rw [hmachine, hhost]
    exact (isSound_ending hL hruns hloaded limit).settle

theorem Session.IsSound.after {s : Session World} (hs : s.IsSound L) (hL : L.IsStrict)
    (hall : ∀ f : Function Value, f.IsCompiled → L.Has f) (history : List (Nat × String)) :
    (s.after history).IsSound L := by
  induction history generalizing s with
  | nil => exact hs
  | cons p history ih =>
    exact ih (hs.interpret hL (fun _ hok => hall _ (isCompiled_of_compile hok)) p.1)

theorem Session.host_after (s : Session World) (history : List (Nat × String)) :
    (s.after history).host = s.host := by
  induction history generalizing s with
  | nil => rfl
  | cons p history ih => exact (ih _).trans (Session.host_interpret s p.1 p.2)

theorem Session.host_opened (host : Host World) (world : World) (switches : Switches)
    (level : LogLevel) (natives : List Signature) (history : List (Nat × String)) :
    (Session.opened host world switches level natives history).host = host :=
  Session.host_after _ history

/-- The natives are the first values of a session. -/
theorem isSound_install (s : Session World) (natives : List Signature) (hs : s.IsSound L) :
    (s.install natives).IsSound L := by
  unfold Session.install
  exact List.foldlRecOn natives defineNative
    (motive := fun m => Session.IsSound L { s with machine := m }) hs
    fun m hm n _ => ⟨hm.machine.defineNative n, hm.callers, hm.openCells⟩

/-- Nothing is there yet that could be unsound. -/
theorem isSound_start {world : World} (hnatives : host.Gives (Value.IsSound L) world)
    (switches : Switches) (level : LogLevel) :
    (Session.start host world switches level).IsSound L := by
  refine ⟨⟨?_, ?_, ?_, hnatives⟩, rfl, rfl⟩
  · intro name v hv
    cases hv
  · exact fun v hv => absurd hv (Array.not_mem_empty _)
  · exact fun g hg => absurd hg List.not_mem_nil

/-- However a session got to where it is, it is sound. -/
theorem isSound_opened (hL : L.IsStrict) (hall : ∀ f : Function Value, f.IsCompiled → L.Has f)
    {world : World} (hnatives : host.Gives (Value.IsSound L) world) (switches : Switches)
    (level : LogLevel) (natives : List Signature) (history : List (Nat × String)) :
    (Session.opened host world switches level natives history).IsSound L :=
  (isSound_install _ natives (isSound_start hnatives switches level)).after hL hall history

/-- The script of a source that compiles in such a session can be run. -/
theorem runs_opened (hL : L.IsStrict) (hall : ∀ f : Function Value, f.IsCompiled → L.Has f)
    {world : World} (hnatives : host.Gives (Value.IsSound L) world) {switches : Switches}
    {level : LogLevel} {natives : List Signature} {history : List (Nat × String)}
    {source : String} {script : Function Value}
    (hok : ((Session.opened host world switches level natives history).compiled
      source).outcome = .ok script) :
    (∃ Γ, (scriptFrame script).Runs L Γ) ∧
      ((Session.opened host world switches level natives history).loaded source).IsSound L
        host := by
  have hsound := isSound_opened hL hall hnatives switches level natives history
  have hruns := hsound.scriptRuns hok (hall _ (isCompiled_of_compile hok))
  rwa [Session.host_opened] at hruns

/-- What a program that compiles can fail with is its own doing: whatever was
interpreted before it and however that ended, no step of it finds a stack that is
too low, an index out of range, a constant of the wrong sort, or no code. -/
theorem isOwn_of_step_failed (hhost : host.IsHarmless) (world : World) (switches : Switches)
    (level : LogLevel) (natives : List Signature) (history : List (Nat × String))
    (source : String) (script : Function Value)
    (hok : ((Session.opened host world switches level natives history).compiled
      source).outcome = .ok script)
    (n : Nat) (g : Frame) (m : Machine World)
    (hrun : ending host n
      ((Session.opened host world switches level natives history).loaded source)
      (scriptFrame script) = .unfinished g m)
    (failure : Failure) (m' : Machine World) (hfail : m.step host g = .failed failure m') :
    failure.fault.IsOwn host := by
  obtain ⟨t, -⟩ := exists_isOfCompiled (isCompiled_of_compile hok)
  have hL := (Library.compiled t).isExact_exact
  have hnatives : host.Gives (Value.IsSound (Library.compiled t).exact) world :=
    (hhost.givesBack (fun _ => .of_isPlain) world).gives
  obtain ⟨⟨Γ, hruns⟩, hloaded⟩ := runs_opened hL.isStrict (fun _ => id) hnatives hok
  obtain ⟨⟨Δ, hg⟩, hm⟩ := runs_of_unfinished hL.isStrict hruns hloaded hrun
  have hturn := turn_of_step hg hm
  rw [hfail] at hturn
  exact hturn.failed.1 (hL _ _ hg.allowed).2

end Sound

/-! ## The console -/

theorem isPlain_answer (c : Console) (name : String) {arguments : List Value} {v : Value}
    (h : (c.answer name arguments).1 = .ok v) : v.isPlain = true := by
  unfold Console.answer at h
  split at h
  · split at h
    · cases h
      rfl
    · cases h
  · unfold Console.argument Except.bind at h
    cases arguments with
    | nil => cases h
    | cons w _ =>
      dsimp only at h
      unfold Console.assert at h
      split at h <;> cases h
      rfl
  · unfold Console.argument Except.map at h
    cases arguments with
    | nil => cases h
    | cons w _ =>
      cases h
      rfl
  · cases h
    rfl
  · cases h

/-- The natives of a console only give plain values and leave the cells alone. -/
theorem isHarmless_console : Console.host.IsHarmless where
  result n _ _ console _ h := .inl (isPlain_answer console n.name h)
  cells _ _ _ _ _ hv := .inr (.inr hv)

/-- So they give nothing but such values and what they get. -/
theorem givesBack_console {P : Value → Prop} (hplain : ∀ v, v.isPlain = true → P v) (c : Console) :
    Console.host.GivesBack P c :=
  isHarmless_console.givesBack hplain c

/-! ## Faults that a program runs into -/

section Faults

/-- The fault of the step that a run of the source comes to after `n` steps. -/
def Session.faultAfter (s : Session World) (source : String) (n : Nat) : Option Fault :=
  match (s.compiled source).outcome with
  | .error _ => none
  | .ok script =>
    match ending s.host n (s.loaded source) (scriptFrame script) with
    | .unfinished g m =>
      match m.step s.host g with
      | .failed failure _ => some failure.fault
      | _ => none
    | _ => none

theorem Session.faultAfter_eq_some {s : Session World} {source : String} {n : Nat} {fault : Fault}
    (h : s.faultAfter source n = some fault) :
    ∃ script g m failure m', (s.compiled source).outcome = .ok script ∧
      ending s.host n (s.loaded source) (scriptFrame script) = .unfinished g m ∧
      m.step s.host g = .failed failure m' ∧ failure.fault = fault := by
  unfold faultAfter at h
  split at h
  · cases h
  next script hok =>
  split at h
  next g m hrun =>
    split at h
    · next failure m' hfail =>
      exact ⟨script, g, m, failure, m', hok, hrun, hfail, Option.some.inj h⟩
    · cases h
  · cases h

/-- A session on a console that has interpreted a source which defined a function with a captured
variable before it failed. -/
def keepingSession : Session Console :=
  .opened Console.host {} {} .off Console.natives
    [(100, "fn keep(x) \x7b fn get() \x7b return x \x7d return get \x7d" ++
      " var kept = keep(true) print(kept()) print(missing)")]

/-- Another source calls that function, which gives it what was captured, and fails as a program
may. -/
theorem isOwn_of_keptCall :
    keepingSession.machine.world.written = "true\n" ∧
    ∃ script g m failure m', (keepingSession.compiled "print(kept()) return -kept()").outcome =
        .ok script ∧
      ending Console.host 11 (keepingSession.loaded "print(kept()) return -kept()")
        (scriptFrame script) = .unfinished g m ∧
      m.step Console.host g = .failed failure m' ∧ failure.fault = .operandNotNumber ∧
      failure.fault.IsOwn Console.host := by
  have hwritten : keepingSession.machine.world.written = "true\n" := by decide +kernel
  have hfault : keepingSession.faultAfter "print(kept()) return -kept()" 11 =
      some .operandNotNumber := by decide +kernel
  have hhost : keepingSession.host = Console.host := Session.host_opened ..
  obtain ⟨script, g, m, failure, m', hok, hrun, hfail, hfault⟩ := Session.faultAfter_eq_some hfault
  rw [hhost] at hrun hfail
  exact ⟨hwritten, script, g, m, failure, m', hok, hrun, hfail, hfault,
    isOwn_of_step_failed isHarmless_console _ _ _ _ _ _ script hok 11 g m hrun failure m' hfail⟩

/-! ### Functions without their cells -/

/-- A native that gives nothing but `nil`, and writes to the first cell of a closure. -/
def Host.writing (content : Closure Value → Value) : Host Unit where
  call _ arguments store world :=
    match arguments with
    | [.closure c] =>
      match c.cells[0]? with
      | some cell => ⟨.ok .nil, store.write cell (content c), world⟩
      | none => ⟨.ok .nil, store, world⟩
    | _ => ⟨.ok .nil, store, world⟩

/-- A function that reads the first of the cells that it captured. -/
def readingCell (id : Identity) (captureCount : Nat) : Function Value :=
  ⟨id, some "reading", 0, captureCount, ⟨#[10, 0, 27], #[1, 1, 1], #[]⟩⟩

/-- Code that no compiler wrote, which defines such a function and not a closure of it. -/
def definingFunction : Function Value :=
  ⟨1, none, 0, 0,
    ⟨#[0, 0, 8, 1, 1, 27], #[1, 1, 1, 1, 1, 1], #[.function (readingCell 0 1), .string "f"]⟩⟩

/-- A native that writes the closure's own function, without its cells. -/
def Host.unwrapping : Host Unit := .writing fun c => .function c.function

/-- If natives write to cells as they like, or if other code has been run in the session before,
then compiled code can come by a function without its cells, and fail as only other code should. -/
theorem upvalueOutOfRange_of_function :
    (∀ n arguments store world v,
      (Host.unwrapping.call n arguments store world).result = .ok v → v = .nil) ∧
    (Session.opened Host.unwrapping () {} .off [("unwrap", some 1)] []).faultAfter
      "\x7b var x = nil fn f() \x7b return x() \x7d unwrap(f) f() \x7d" 10 =
        some (.upvalueOutOfRange 0) ∧
    ((Session.start Console.host {} {} .off).run 4 definingFunction).2.faultAfter "f()" 2 =
      some (.upvalueOutOfRange 0) ∧
    (Fault.upvalueOutOfRange 0).isInternal = true := by
  refine ⟨fun n arguments store world v h => ?_, by decide +kernel, by decide +kernel, rfl⟩
  unfold Host.unwrapping Host.writing at h
  dsimp only at h
  split at h
  · split at h <;> exact (Except.ok.inj h).symm
  · exact (Except.ok.inj h).symm

end Faults

end ScriptEngine
