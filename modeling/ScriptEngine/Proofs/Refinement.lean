import ScriptEngine.Proofs.Session
import ScriptEngine.Proofs.Tree.ProgramRun
set_option autoImplicit false

/-!
# Programs without functions mean what their trees mean

A source that is written as a program tree says and that compiles is carried out by a
session as the tree is interpreted (`interpret_agrees`): the one comes to an end just if
the other one does, and then with the same result or the same fault, with the same
globals, and with the same calls of natives in the same order.  The calls are those that
a recording host has written down.
-/

namespace ScriptEngine

open Machine ScriptEngine.Tree

variable {World : Type}

/-! ## Hosts -/

/-- A host that writes down which natives are called with which arguments. -/
def Host.recording (host : Host World) : Host (World × List (Native × List Value)) where
  call n arguments store world :=
    let reply := host.call n arguments store world.1
    ⟨reply.result, reply.store, reply.world, world.2 ++ [(n, arguments)]⟩

theorem Host.GivesData.recording {host : Host World} (h : host.GivesData) :
    host.recording.GivesData :=
  fun n arguments store world v hdata hok => h n arguments store world.1 v hdata hok

theorem givesData_console : Console.host.GivesData := by
  intro n arguments store c v _ hok
  have hplain := isPlain_answer c n.name hok
  cases v <;> first | rfl | cases hplain

/-! ## Sessions -/

namespace Session

/-- A session between two programs whose globals are data. -/
structure HoldsData (s : Session World) : Prop where
  callers : s.machine.callers = []
  openCells : s.machine.openCells = #[]
  globals : ∀ x v, s.global? x = some v → v.isData = true

/-- The memory that a program finds. -/
def memory (s : Session World) (source : String) : Memory World where
  globals := s.machine.globals
  store := (s.loaded source).store
  world := s.machine.world

theorem holdsData_start (host : Host World) (world : World) (switches : Switches)
    (level : LogLevel) : (start host world switches level).HoldsData :=
  ⟨rfl, rfl, fun _ _ hv => nomatch hv⟩

/-- Natives are data. -/
theorem HoldsData.install {s : Session World} (h : s.HoldsData) (natives : List Signature) :
    (s.install natives).HoldsData := by
  unfold Session.install
  refine List.foldlRecOn natives defineNative (motive := fun m => HoldsData { s with machine := m })
    h fun m hm n _ => ⟨hm.callers, hm.openCells, fun x v hv => ?_⟩
  rcases Globals.eq_or_get_of_get_define hv with rfl | hv
  · rfl
  · exact hm.globals x v hv

theorem HoldsData.machine {s : Session World} (h : s.HoldsData) (source : String) :
    (s.memory source).machine = s.loaded source := by
  obtain ⟨host, ⟨callers, openCells, globals, store, world⟩, switches, level, profile⟩ := s
  obtain rfl : callers = [] := h.callers
  obtain rfl : openCells = #[] := h.openCells
  rfl

theorem HoldsData.isData {s : Session World} (h : s.HoldsData) (source : String) :
    (s.memory source).IsData where
  locals _ hv := nomatch hv
  globals := h.globals

end Session

/-- The outcome of a program is a result, or the fault that there is none. -/
def Outcome.Agrees : Outcome → Except Fault Value → Prop
  | .value v, .ok w => v = w
  | .error (.runtime e), .error fault => e.fault = fault
  | _, _ => False


/-- An ending gives an outcome. -/
theorem agrees_outcomeOf {σ : Memory World} {e : Ending World} {result : Except Fault Value}
    (h : Gives σ e result) : (Session.outcomeOf e).Agrees result ∧ e.machine = σ.machine := by
  cases e with
  | unfinished f m => exact absurd h id
  | returned v m =>
    cases result with
    | ok w => exact h
    | error fault => exact absurd h id
  | raised e m =>
    cases result with
    | ok w => exact absurd h id
    | error fault => exact h

/-! ## Programs -/

section Programs

variable {s : Session World} {source : String} {p : List Statement} {script : Function Value}

/-- A limit that is high enough may be higher. -/
theorem interpret_eq_of_le (hok : (s.compiled source).outcome = .ok script) {limit more : Nat}
    (hle : limit ≤ more) (h : (s.interpret limit source).1.outcome ≠ .unfinished) :
    (s.interpret more source).1.outcome = (s.interpret limit source).1.outcome ∧
      (s.interpret more source).2.machine = (s.interpret limit source).2.machine := by
  obtain ⟨houtcome, hmachine⟩ := Session.interpret_eq hok limit
  obtain ⟨houtcome', hmachine'⟩ := Session.interpret_eq hok more
  have hsame := ending_eq_of_le hle fun g m heq => h (by rw [houtcome, heq]; rfl)
  rw [houtcome, hmachine, houtcome', hmachine', hsame]
  exact ⟨rfl, rfl⟩

/-- A program that is interpreted to its end is carried out to its end. -/
theorem interpret_of_tree (hhost : s.host.GivesData) (hdata : s.HoldsData)
    (hwrites : Writes source p) (hok : (s.compiled source).outcome = .ok script)
    {fuel : Nat} {result : Except Fault Value} {σ : Memory World}
    (h : Tree.interpret s.host fuel p (s.memory source) = some (result, σ)) :
    ∃ limit, (s.interpret limit source).1.outcome.Agrees result ∧
      (s.interpret limit source).2.machine = σ.machine := by
  obtain ⟨code, last, hcode, hlast, hall⟩ := Compile.script_of_writes hwrites hok
  obtain ⟨n, hn⟩ := ending_of_interpret hhost (hdata.isData source) rfl hcode hlast hall h
  rw [hdata.machine source] at hn
  obtain ⟨houtcome, hmachine⟩ := Session.interpret_eq hok n
  obtain ⟨hagrees, hend⟩ := agrees_outcomeOf hn
  rw [← houtcome] at hagrees
  rw [hend] at hmachine
  exact ⟨n, hagrees, hmachine⟩

/-- A program that is carried out to its end is interpreted to its end. -/
theorem tree_of_interpret (hhost : s.host.GivesData) (hdata : s.HoldsData)
    (hwrites : Writes source p) (hok : (s.compiled source).outcome = .ok script)
    {limit : Nat} (h : (s.interpret limit source).1.outcome ≠ .unfinished) :
    ∃ fuel, (Tree.interpret s.host fuel p (s.memory source)).isSome = true := by
  obtain ⟨code, last, hcode, hlast, hall⟩ := Compile.script_of_writes hwrites hok
  -- Had the interpretation been given up, the run would go on for longer than it does.
  refine ⟨limit + 1, Option.isSome_iff_ne_none.mpr fun hnone => ?_⟩
  obtain ⟨n, g, m, hn, hends⟩ :=
    unfinished_of_interpret hhost (hdata.isData source) rfl hcode hlast hall hnone
  rw [hdata.machine source] at hends
  obtain ⟨hsame, -⟩ := interpret_eq_of_le hok (Nat.le_of_succ_le hn) h
  rw [← hsame, (Session.interpret_eq hok n).1, hends] at h
  exact h rfl

end Programs

/-- A session carries out a program without functions just as its tree is interpreted. -/
theorem interpret_agrees {host : Host World} (hhost : host.GivesData)
    {s : Session (World × List (Native × List Value))} (hrecording : s.host = host.recording)
    (hdata : s.HoldsData) {source : String} {p : List Statement} (hwrites : Writes source p)
    {script : Function Value} (hok : (s.compiled source).outcome = .ok script) :
    ((∃ limit, (s.interpret limit source).1.outcome ≠ .unfinished) ↔
      ∃ fuel, (Tree.interpret s.host fuel p (s.memory source)).isSome = true) ∧
    ∀ limit fuel result σ, (s.interpret limit source).1.outcome ≠ .unfinished →
      Tree.interpret s.host fuel p (s.memory source) = some (result, σ) →
      (s.interpret limit source).1.outcome.Agrees result ∧
      (s.interpret limit source).2.machine.globals = σ.globals ∧
      (s.interpret limit source).2.machine.world = σ.world := by
  have hgives : s.host.GivesData := hrecording ▸ hhost.recording
  have hends : ∀ fuel result σ,
      Tree.interpret s.host fuel p (s.memory source) = some (result, σ) →
      ∃ limit, (s.interpret limit source).1.outcome ≠ .unfinished ∧
        (s.interpret limit source).1.outcome.Agrees result ∧
        (s.interpret limit source).2.machine = σ.machine := by
    intro fuel result σ h
    obtain ⟨n, hagrees, hmachine⟩ := interpret_of_tree hgives hdata hwrites hok h
    exact ⟨n, fun hunfinished => by rw [hunfinished] at hagrees; exact hagrees, hagrees, hmachine⟩
  refine ⟨⟨fun ⟨limit, h⟩ => tree_of_interpret hgives hdata hwrites hok h, ?_⟩, ?_⟩
  · rintro ⟨fuel, h⟩
    obtain ⟨⟨result, σ⟩, hsome⟩ := Option.isSome_iff_exists.mp h
    obtain ⟨n, hn, -⟩ := hends fuel result σ hsome
    exact ⟨n, hn⟩
  · intro limit fuel result σ hfinished hsome
    obtain ⟨n, hn, hagrees, hmachine⟩ := hends fuel result σ hsome
    have hsame := interpret_eq_of_le hok (Nat.le_max_left limit n) hfinished
    have hsame' := interpret_eq_of_le hok (Nat.le_max_right limit n) hn
    rw [← hsame.1, ← hsame.2, hsame'.1, hsame'.2, hmachine]
    exact ⟨hagrees, rfl, rfl⟩

/-- A program with a loop. -/
def oneRound : List Statement :=
  [.var "x" (some (.literal (.string "a"))),
   .loop (.binary .equal (.name "x") (.literal (.string "a")))
     [.expression (.call (.name "print") [.name "x"]),
      .expression (.assign "x" (.literal (.string "b")))],
   .result (.name "x")]

def oneRoundSource : String :=
  "var x = \"a\" while (x == \"a\") \x7b \x7b (print(x)) \x7d \x7b (x = \"b\") \x7d \x7d return x"

/-- A console with its natives, which are recorded. -/
def recordingConsole : Session (Console × List (Native × List Value)) :=
  (Session.start Console.host.recording ({}, []) {} .off).install Console.natives

theorem writes_oneRound : Writes oneRoundSource oneRound := by decide +kernel

theorem compiles_oneRound :
    ∃ script, (recordingConsole.compiled oneRoundSource).outcome = .ok script := by
  have hok : (recordingConsole.compiled oneRoundSource).outcome.isOk = true := by decide +kernel
  cases h : (recordingConsole.compiled oneRoundSource).outcome with
  | ok script => exact ⟨script, rfl⟩
  | error _ =>
    rw [h] at hok
    cases hok

/-- That program prints what its variable was, and returns what it is. -/
theorem interpret_agrees_oneRound :
    ∃ limit,
      (recordingConsole.interpret limit oneRoundSource).1.outcome.Agrees (.ok (.string "b")) ∧
      (recordingConsole.interpret limit oneRoundSource).2.machine.world.2 =
        [(⟨0, "print", some 1⟩, [.string "a"])] := by
  obtain ⟨script, hok⟩ := compiles_oneRound
  obtain ⟨hends, hagrees⟩ := interpret_agrees givesData_console (s := recordingConsole) rfl
    ((Session.holdsData_start _ _ _ _).install _) writes_oneRound hok
  have htree : ∃ σ, Tree.interpret recordingConsole.host 2 oneRound
      (recordingConsole.memory oneRoundSource) = some (.ok (.string "b"), σ) ∧
      σ.world.2 = [(⟨0, "print", some 1⟩, [.string "a"])] := ⟨_, rfl, rfl⟩
  obtain ⟨σ, htree, hcalls⟩ := htree
  obtain ⟨limit, hfinished⟩ := hends.mpr ⟨2, by rw [htree]; rfl⟩
  obtain ⟨houtcome, -, hworld⟩ := hagrees limit 2 _ σ hfinished htree
  exact ⟨limit, houtcome, by rw [hworld, hcalls]⟩

end ScriptEngine
