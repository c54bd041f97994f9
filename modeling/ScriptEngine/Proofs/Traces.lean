import ScriptEngine.Proofs.Compile.Rows
import ScriptEngine.Proofs.Heights
import ScriptEngine.Proofs.Joined.Program
import ScriptEngine.Proofs.Machine.Blame
import ScriptEngine.Proofs.Machine.Failing
import ScriptEngine.Proofs.Session
set_option autoImplicit false

/-!
# Traces: what the report of a failure says

When a program that compiled fails, its error tells where each active call was: one line
for each, the innermost first and the script last (`traces_exact`).  The innermost call
is at the instruction that failed, and every other one at the call that it waits for;
the line is that of the instruction's opcode.

The machine looks the line up behind the last byte that was read.  This is right because
an instruction breaks off within its own bytes (`breaks_within_instruction`), all of which
have its line (`line_of_mem_instructions`), and because a frame that waits is right behind
a call (`Frame.IsSuspendedAt`).
-/

namespace ScriptEngine

open Machine Compile

variable {World : Type}

/-! ## Where frames are -/

/-- The instruction is one of those that the function decodes to. -/
def Function.HasInstruction (f : Function Value) (i : Instruction) : Prop :=
  ∃ is, f.chunk.instructions = .ok is ∧ i ∈ is

/-- The frame is about to carry the instruction out. -/
structure Frame.IsAt (f : Frame) (i : Instruction) : Prop where
  instruction : f.function.HasInstruction i
  ip : f.ip = i.offset

/-- The frame waits for the call that the instruction makes. -/
structure Frame.IsSuspendedAt (f : Frame) (i : Instruction) : Prop where
  instruction : f.function.HasInstruction i
  call : i.op = .call
  ip : f.ip = i.offset + i.size

/-- What a trace says of a frame: the name of its function, and the line of the opcode of
an instruction. -/
structure TraceLine.Tells (t : TraceLine) (f : Frame) (i : Instruction) : Prop where
  function : t.function = f.function.name
  line : f.chunk.lines[i.offset]? = some t.line

/-- All bytes of an instruction have one line. -/
def Function.IsLined (f : Function Value) : Prop :=
  ∀ i, f.HasInstruction i → ∀ k < i.size, f.chunk.lines[i.offset + k]? = some i.line

theorem Compile.Finished.IsCompiled.isLined {done : Finished} (h : done.IsCompiled) :
    done.function.IsLined := by
  obtain ⟨firstId, source, script, -, hdone⟩ := h
  obtain ⟨ws, hrow⟩ := exists_isRow_of_finished hdone
  rintro i ⟨is, his, hi⟩ k hk
  exact Chunk.line_of_mem_instructions hrow his hi hk

/-- A line is told right when it is looked up behind some byte of the instruction. -/
theorem Function.IsLined.tells {f : Frame} {i : Instruction} (h : f.function.IsLined)
    (hi : f.function.HasInstruction i) {ip : Nat} (hlo : i.offset < ip)
    (hhi : ip ≤ i.offset + i.size) : (TraceLine.ofCall f.function ip).Tells f i where
  function := rfl
  line := by
    have hfirst := h i hi 0 i.size_pos
    have hlast := h i hi (ip - 1 - i.offset) (by omega)
    rw [show i.offset + (ip - 1 - i.offset) = ip - 1 by omega] at hlast
    show f.function.chunk.lines[i.offset]? = some (f.function.chunk.lines[ip - 1]?.getD 0)
    rw [hlast]
    exact hfirst

section Frames

variable {p : Function Value} {t : Typing p} {f : Frame} {Γ : Layout}

theorem isLined_of_has (h : (Library.compiled t).Has f.function) : f.function.IsLined := by
  obtain ⟨done, hdone, heq⟩ := h
  exact heq ▸ hdone.isLined

/-- A frame with a layout is at an instruction, which is what its place decodes to. -/
theorem exists_isAt (h : f.At (Library.compiled t) Γ) :
    ∃ i, f.IsAt i ∧ f.chunk.decode f.ip = .ok i := by
  obtain ⟨Δ, hΔ, -⟩ := ((Library.compiled t).typing f.function h.has).start
  obtain ⟨is, his, -, hall⟩ := Typing.instructionsFrom _ hΔ
  obtain ⟨i, hi, hip⟩ := hall f.ip Γ (Nat.zero_le _) h.layout
  exact ⟨i, ⟨⟨is, his, hi⟩, hip.symm⟩, hip ▸ Chunk.decode_of_mem his hi⟩

end Frames

/-! ## What runs keep -/

/-- The calls can be traced back to the script: it is the outermost of them, and each one
that waits is right behind a call. -/
structure Machine.IsTraceable (script : Function Value) (f : Frame) (m : Machine World) :
    Prop where
  outermost : ((f :: m.callers).map Frame.function).getLast? = some script
  callers : ∀ c ∈ m.callers, ∃ i, c.IsSuspendedAt i

namespace Machine

theorem callers_takeOne (f : Frame) (c : Capture) (taken : Taken) (m : Machine World) :
    (takeOne f c taken m).2.callers = m.callers := by
  unfold takeOne cellFor
  dsimp only
  split
  · split <;> rfl
  · rfl

theorem callers_takeAll (f : Frame) (cs : List Capture) (taken : Taken) (m : Machine World) :
    (takeAll f cs taken m).2.callers = m.callers := by
  induction cs generalizing taken m with
  | nil => rfl
  | cons c cs ih => exact (ih _ _).trans (callers_takeOne ..)

variable {script : Function Value} {f g : Frame} {m m' : Machine World} {i : Instruction}

/-- Within a function nothing changes about the calls. -/
theorem IsTraceable.within (h : m.IsTraceable script f) (hfunction : g.function = f.function)
    (hcallers : m'.callers = m.callers) : m'.IsTraceable script g where
  outermost := by
    rw [List.map_cons, hfunction, hcallers]
    exact h.outermost
  callers := by
    rw [hcallers]
    exact h.callers

/-- An instruction keeps the calls traceable. -/
theorem IsTraceable.follows (h : m.IsTraceable script f) (hi : f.IsAt i)
    (hfollows : m.Follows f i (.running g m')) : m'.IsTraceable script g := by
  cases hfollows with
  | behind _ _ _ callers => exact h.within rfl callers
  | target => exact h.within rfl rfl
  | @closed _ _ taken after _ _ _ _ _ _ captures callers =>
    have hafter := callers_takeAll f i.captures {} m
    rw [captures] at hafter
    exact h.within rfl (callers.trans hafter)
  | entered op _ callers =>
    constructor
    · rw [callers, List.map_cons, List.map_cons, List.getLast?_cons_cons]
      exact h.outermost
    · rw [callers]
      exact List.forall_mem_cons.mpr
        ⟨⟨i, hi.instruction, op, congrArg (· + i.size) hi.ip⟩, h.callers⟩
  | resumed _ callers =>
    obtain ⟨houtermost, hall⟩ := h
    rw [callers] at houtermost hall
    rw [List.map_cons, List.map_cons, List.getLast?_cons_cons] at houtermost
    exact ⟨houtermost, fun c hc => hall c (List.mem_cons_of_mem _ hc)⟩

end Machine

section Runs

variable {p script : Function Value} {t : Typing p} {host : Host World}
  {m k : Machine World} {f g : Frame} {Γ : Layout}

/-- A step keeps the calls traceable. -/
theorem isTraceable_of_step (hf : f.Runs (Library.compiled t) Γ)
    (h : m.IsTraceable script f) (hstep : m.step host f = .running g k) :
    k.IsTraceable script g := by
  have hlines := ((Library.compiled t).typing f.function hf.has).size_lines
  obtain ⟨i, hi, hdecode⟩ := exists_isAt hf.toAt
  obtain ⟨j, hj, -, hfollows⟩ := exists_decode_of_step (Nat.le_of_eq hlines.symm)
    hf.roomAskedFor_lt (Progress.not_hasFailed hstep)
  obtain rfl : i = j := Except.ok.inj (hdecode.symm.trans hj)
  rw [hstep] at hfollows
  exact h.follows hi hfollows

/-- At every moment of a run the calls are traceable. -/
theorem isTraceable_of_unfinished (hf : f.Runs (Library.compiled t) Γ)
    (hm : m.IsSound (Library.compiled t) host) (h : m.IsTraceable script f) {n : Nat}
    (hrun : ending host n m f = .unfinished g k) : k.IsTraceable script g := by
  induction n generalizing g k with
  | zero =>
    cases hrun
    exact h
  | succ n ih =>
    obtain ⟨g₀, k₀, hbefore, hstep⟩ := ending_succ_eq_unfinished_iff.mp hrun
    obtain ⟨⟨Δ, hg₀⟩, -⟩ := runs_of_unfinished (fun _ _ h => h) hf hm hbefore
    exact isTraceable_of_step hg₀ (ih hbefore) hstep

end Runs

/-! ## Traces -/

/-- A trace has a line for each frame that is active, the innermost first. -/
structure RuntimeError.IsExact (e : RuntimeError) (g : Frame) (callers : List Frame) :
    Prop where
  /-- The innermost call is at the instruction that failed. -/
  innermost : ∃ t i, e.trace.head? = some t ∧ g.IsAt i ∧ t.Tells g i
  /-- All others are at the call that they wait for. -/
  suspended : List.Forall₂ (fun t c => ∃ i, c.IsSuspendedAt i ∧ t.Tells c i)
    e.trace.tail callers

/-- Whatever a program that compiled fails with, and however deep its calls are then, the
trace is exact: when the last step of it fails, `g` is the frame that runs and `k.callers`
are those that wait, of which the last is that of the script.  The natives may give back
whatever they like as long as its code is compiled. -/
theorem traces_exact {host : Host World} {world : World}
    (hhost : host.Gives Value.IsCompiled world) (switches : Switches) (level : LogLevel)
    (natives : List Signature) (history : List (Nat × String)) (source : String)
    (script : Function Value)
    (hok : ((Session.opened host world switches level natives history).compiled
      source).outcome = .ok script)
    (limit : Nat) (e : RuntimeError) (last : Machine World)
    (hraised : ending host limit
      ((Session.opened host world switches level natives history).loaded source)
      (scriptFrame script) = .raised e last) :
    ∃ n g k failure, n < limit ∧
      ending host n ((Session.opened host world switches level natives history).loaded source)
        (scriptFrame script) = .unfinished g k ∧
      k.step host g = .failed failure last ∧ e.fault = failure.fault ∧
      e.IsExact g k.callers ∧
      ((g :: k.callers).map Frame.function).getLast? = some script ∧ script.name = none := by
  obtain ⟨t, -⟩ := exists_isOfCompiled (isCompiled_of_compile hok)
  have hnatives : host.Gives (Value.IsSound (.compiled t)) world := hhost
  have hL : (Library.compiled t).IsStrict := fun _ _ h => h
  obtain ⟨⟨Γ, hruns⟩, hloaded⟩ := runs_opened hL (fun _ => id) hnatives hok
  have hidle : ((Session.opened host world switches level natives history).loaded
      source).callers = [] :=
    (isSound_opened hL (fun _ => id) hnatives switches level natives history).callers
  have hstart : ((Session.opened host world switches level natives history).loaded
      source).IsTraceable script (scriptFrame script) := by
    refine ⟨?_, ?_⟩
    · rw [hidle]
      rfl
    · rw [hidle]
      exact fun c hc => absurd hc List.not_mem_nil
  obtain ⟨n, g, k, failure, hlt, hrun, hfailed, rfl⟩ := exists_of_raised hraised
  obtain ⟨⟨Δ, hg⟩, hk⟩ := runs_of_unfinished hL hruns hloaded hrun
  have htraceable := isTraceable_of_unfinished hruns hloaded hstart hrun
  have hcallers : last.callers = k.callers := by
    rcases failsBy_of_step hfailed with rfl | ⟨native, arguments, message, -, -, rfl⟩ <;> rfl
  refine ⟨n, g, k, failure, hlt, hrun, hfailed, rfl, ⟨?_, ?_⟩, htraceable.outermost,
    name_of_compile hok⟩
  · obtain ⟨i, hi, hdecode⟩ := exists_isAt hg.toAt
    obtain ⟨hlo, hhi⟩ := breaks_within_instruction hdecode hg.roomAskedFor_lt hfailed
    exact ⟨_, i, rfl, hi, (isLined_of_has hg.has).tells hi.instruction (hi.ip ▸ hlo)
      (hi.ip ▸ hhi)⟩
  · show List.Forall₂ _ (last.callers.map fun c => TraceLine.ofCall c.function c.ip) _
    rw [hcallers, List.forall₂_map_left_iff, List.forall₂_same]
    intro c hc
    obtain ⟨i, hi⟩ := htraceable.callers c hc
    obtain ⟨Θ, hwaits⟩ := (hk.callers c hc).exists_waits hL
    have hpos := i.size_pos
    refine ⟨i, hi, (isLined_of_has hwaits.has).tells hi.instruction ?_ (Nat.le_of_eq hi.ip)⟩
    rw [hi.ip]
    omega

/-- A function that reads a variable on its second line. -/
def readingInside : Function Value :=
  ⟨0, some "f", 0, 0, ⟨#[7, 0, 4, 1, 27], #[2, 2, 2, 3, 3], #[.string "x"]⟩⟩

/-- The script that declares it and calls it on the fourth line. -/
def callingReader : Function Value :=
  ⟨1, none, 0, 0,
    ⟨#[26, 1, 8, 0, 7, 2, 25, 0, 4, 1, 27], #[3, 3, 3, 3, 4, 4, 4, 4, 4, 4, 4],
      #[.string "f", .function readingInside, .string "f"]⟩⟩

theorem compile_callingReader :
    (compile 0 "fn f() \x7b\n  x\n\x7d\nf()").outcome = .ok callingReader ∧
      (compile 0 "fn f() \x7b\n  x\n\x7d\nf()").nextId = 2 := by
  have hscan : scan "fn f() \x7b\n  x\n\x7d\nf()" =
      [⟨.fnWord, "fn", 1⟩, ⟨.identifier, "f", 1⟩, ⟨.leftParen, "(", 1⟩,
        ⟨.rightParen, ")", 1⟩, ⟨.leftBrace, "\x7b", 1⟩, ⟨.identifier, "x", 2⟩,
        ⟨.rightBrace, "\x7d", 3⟩, ⟨.identifier, "f", 4⟩, ⟨.leftParen, "(", 4⟩,
        ⟨.rightParen, ")", 4⟩, .endAt 4] := by decide +kernel
  unfold compile
  rw [hscan]
  exact ⟨rfl, rfl⟩

/-- What a fresh session is loaded with for the script. -/
def readerMachine : Machine Console := { store := { nextId := 2 }, world := {} }

/-- The variable is not defined, and the trace has the line where it is read and the line
where the function is called. -/
theorem traces_exact_callingReader :
    ∃ last : Machine Console, ending Console.host 10 readerMachine (scriptFrame callingReader) =
        .raised ⟨.undefinedVariable "x", [⟨some "f", 2⟩, ⟨none, 4⟩]⟩ last ∧
      ∃ n g k failure, n < 10 ∧
        ending Console.host n readerMachine (scriptFrame callingReader) = .unfinished g k ∧
        k.step Console.host g = .failed failure last ∧
        (⟨.undefinedVariable "x", [⟨some "f", 2⟩, ⟨none, 4⟩]⟩ : RuntimeError).fault =
          failure.fault ∧
        (⟨.undefinedVariable "x", [⟨some "f", 2⟩, ⟨none, 4⟩]⟩ : RuntimeError).IsExact g
          k.callers ∧
        ((g :: k.callers).map Frame.function).getLast? = some callingReader ∧
        callingReader.name = none := by
  have hloaded : (Session.opened Console.host {} {} .off [] []).loaded
      "fn f() \x7b\n  x\n\x7d\nf()" = readerMachine :=
    congrArg (fun nextId => (⟨[], #[], {}, { nextId }, {}⟩ : Machine Console))
      compile_callingReader.2
  have hraised : ending Console.host 10 readerMachine (scriptFrame callingReader) =
      .raised ⟨.undefinedVariable "x", [⟨some "f", 2⟩, ⟨none, 4⟩]⟩ {
        callers := [⟨callingReader, #[], 8, #[.function callingReader]⟩]
        globals := ⟨[("f", .closure ⟨2, readingInside, #[]⟩)]⟩
        store := { nextId := 3 }
        world := {} } := by
    cbv
  refine ⟨_, hraised, ?_⟩
  have hexact := traces_exact
    (givesBack_console (fun _ => Value.isCompiled_of_isPlain) {}).gives {} .off [] []
    "fn f() \x7b\n  x\n\x7d\nf()" callingReader compile_callingReader.1 10 _ _
    (hloaded ▸ hraised)
  rwa [hloaded] at hexact

end ScriptEngine
