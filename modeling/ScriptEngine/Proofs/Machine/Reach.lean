import ScriptEngine.Proofs.Machine.Turn
set_option autoImplicit false

/-!
# Machine: what runs keep

From a frame with a known layout a run only ever gets to such frames
(`runs_of_unfinished`), and wherever it ends, the machine is as sound as before
(`isSound_ending`).
-/

namespace ScriptEngine

open Machine

variable {World : Type} {L : Library} {host : Host World} {m m' : Machine World}
  {f f' : Frame} {Γ : Layout}

/-! ## One step -/

theorem Frame.Waits.push {caller : Frame} (h : caller.Waits L Γ) {v : Value}
    (hv : v.IsSound L) : (caller.push v).Runs L Γ :=
  ⟨⟨h.has, h.layout, h.allowed, values_push h.values hv⟩,
    (Array.size_push _).trans h.size⟩

theorem Frame.Runs.mayRun (h : f.Runs L Γ) : f.MayRun L := ⟨h.allowed, fun _ => ⟨Γ, h⟩⟩

theorem Frame.Waits.mayWait (h : f.Waits L Γ) : f.MayWait L := ⟨h.allowed, fun _ => ⟨Γ, h⟩⟩

theorem Frame.MayWait.push {caller : Frame} (h : caller.MayWait L) {v : Value}
    (hv : v.IsSound L) : (caller.push v).MayRun L :=
  ⟨h.allowed, fun hhas =>
    have ⟨Γ, hwaits⟩ := h.waits hhas
    ⟨Γ, hwaits.push hv⟩⟩

theorem Frame.MayRun.exists_runs (hL : L.IsStrict) (h : f.MayRun L) : ∃ Γ, f.Runs L Γ :=
  h.runs (hL _ _ h.allowed)

theorem Frame.MayWait.exists_waits (hL : L.IsStrict) (h : f.MayWait L) : ∃ Γ, f.Waits L Γ :=
  h.waits (hL _ _ h.allowed)

/-- A step that goes on leads to a frame with a layout, if its function is in the library. -/
theorem Turn.running (h : Turn L host m f Γ (.running f' m')) :
    f'.MayRun L ∧ m'.IsSound L host := by
  cases h with
  | inside runs _ _ sound => exact ⟨runs.mayRun, sound⟩
  | retire runs _ _ _ sound => exact ⟨runs.mayRun, sound.withOpenCells _⟩
  | closure _ _ _ runs _ _ sound => exact ⟨runs.mayRun, sound⟩
  | enter runs waits _ _ _ sound =>
    refine ⟨runs, sound.globals, sound.cells, ?_, sound.natives⟩
    exact List.forall_mem_cons.mpr ⟨waits.mayWait, sound.callers⟩
  | «return» sound _ hcallers hv =>
    have hall := sound.callers
    rw [hcallers] at hall
    obtain ⟨hwaits, hrest⟩ := List.forall_mem_cons.mp hall
    have hclosed := sound.closeFrame
    exact ⟨hwaits.push hv, hclosed.globals, hclosed.cells, hrest, hclosed.natives⟩

theorem Turn.finished {v : Value} (h : Turn L host m f Γ (.finished v m')) :
    m'.IsSound L host := by
  cases h with
  | finish sound _ => exact sound.closeFrame

theorem Turn.failed {failure : Failure} (h : Turn L host m f Γ (.failed failure m')) :
    (f.cells.size = f.function.captureCount → failure.fault.IsOwn host) ∧ m'.IsSound L host := by
  cases h with
  | fail own sound => exact ⟨own, sound⟩

/-! ## Runs -/

theorem ending_succ (host : Host World) (n : Nat) (m : Machine World) (f : Frame) :
    ending host (n + 1) m f =
      match m.step host f with
      | .running f' m' => ending host n m' f'
      | .finished v m' => .returned v m'
      | .failed failure m' => .raised (.ofFailure failure f.function m'.callers) m' := by
  unfold ending
  rw [runFor]
  cases m.step host f <;> rfl

/-- A run that is not finished has made one step after another. -/
theorem ending_succ_eq_unfinished_iff {n : Nat} :
    ending host (n + 1) m f = .unfinished f' m' ↔
      ∃ g k, ending host n m f = .unfinished g k ∧ k.step host g = .running f' m' := by
  induction n generalizing m f with
  | zero =>
    rw [ending_succ]
    constructor
    · intro h
      refine ⟨f, m, rfl, ?_⟩
      split at h
      · next hstep =>
        cases h
        exact hstep
      · cases h
      · cases h
    · rintro ⟨g, k, h, hstep⟩
      cases h
      rw [hstep]
      rfl
  | succ n ih =>
    rw [ending_succ, ending_succ host n]
    cases m.step host f with
    | running f₁ m₁ => exact ih
    | finished v m₁ =>
      refine ⟨(fun h => nomatch h), ?_⟩
      rintro ⟨g, k, h, -⟩
      cases h
    | failed failure m₁ =>
      refine ⟨(fun h => nomatch h), ?_⟩
      rintro ⟨g, k, h, -⟩
      cases h

namespace Machine

/-- A run goes on where a shorter one was. -/
theorem ending_add {n : Nat} (h : ending host n m f = .unfinished f' m') (k : Nat) :
    ending host (n + k) m f = ending host k m' f' := by
  induction n generalizing m f with
  | zero =>
    cases h
    rw [Nat.zero_add]
  | succ n ih =>
    rw [ending_succ] at h
    rw [Nat.succ_add, ending_succ]
    cases hstep : m.step host f with
    | running g k =>
      rw [hstep] at h
      exact ih h
    | finished v k =>
      rw [hstep] at h
      cases h
    | failed failure k =>
      rw [hstep] at h
      cases h

/-- A run of one step. -/
theorem exists_ending_of_step (h : m.step host f = .running f' m') :
    ∃ n, ending host n m f = .unfinished f' m' :=
  ⟨1, by rw [ending_succ, h]; rfl⟩

/-- What has ended stays so. -/
theorem ending_eq_of_le {n k : Nat} (hle : n ≤ k)
    (h : ∀ g l, ending host n m f ≠ .unfinished g l) :
    ending host k m f = ending host n m f := by
  induction n generalizing k m f with
  | zero => exact absurd rfl (h f m)
  | succ n ih =>
    obtain ⟨k, rfl⟩ : ∃ j, k = j + 1 := ⟨k - 1, by omega⟩
    rw [ending_succ, ending_succ] at *
    cases hstep : m.step host f with
    | running g l =>
      rw [hstep] at h
      exact ih (Nat.le_of_succ_le_succ hle) h
    | finished v l => rfl
    | failed failure l => rfl

/-- A run that ends with an error has got to a step that fails. -/
theorem exists_of_raised {limit : Nat} {e : RuntimeError}
    (h : ending host limit m f = .raised e m') :
    ∃ n g k failure, n < limit ∧ ending host n m f = .unfinished g k ∧
      k.step host g = .failed failure m' ∧ e = .ofFailure failure g.function m'.callers := by
  induction limit generalizing m f with
  | zero => cases h
  | succ limit ih =>
    rw [ending_succ] at h
    cases hstep : m.step host f with
    | running f₁ m₁ =>
      rw [hstep] at h
      obtain ⟨n, g, k, failure, hlt, hn, hrest⟩ := ih h
      refine ⟨n + 1, g, k, failure, Nat.succ_lt_succ hlt, ?_, hrest⟩
      rw [ending_succ, hstep]
      exact hn
    | finished v m₁ =>
      rw [hstep] at h
      cases h
    | failed failure m₁ =>
      rw [hstep] at h
      cases h
      exact ⟨0, f, m, failure, Nat.succ_pos limit, rfl, hstep, rfl⟩

end Machine

/-! ## Soundness -/

/-- Where there is no other code, a run only gets to frames with a layout. -/
theorem runs_of_unfinished (hL : L.IsStrict) (hf : f.Runs L Γ) (hm : m.IsSound L host)
    {n : Nat} (h : ending host n m f = .unfinished f' m') :
    (∃ Δ, f'.Runs L Δ) ∧ m'.IsSound L host := by
  induction n generalizing f' m' with
  | zero =>
    cases h
    exact ⟨⟨Γ, hf⟩, hm⟩
  | succ n ih =>
    obtain ⟨g, k, hbefore, hstep⟩ := ending_succ_eq_unfinished_iff.mp h
    obtain ⟨⟨Δ, hg⟩, hk⟩ := ih hbefore
    have hturn := turn_of_step hg hk
    rw [hstep] at hturn
    exact hturn.running.imp_left (Frame.MayRun.exists_runs hL)

/-- However a run ends, its values are sound. -/
theorem isSound_ending (hL : L.IsStrict) (hf : f.Runs L Γ) (hm : m.IsSound L host)
    (n : Nat) : (ending host n m f).machine.IsSound L host := by
  induction n generalizing m f Γ with
  | zero => exact hm
  | succ n ih =>
    rw [ending_succ]
    have hturn := turn_of_step hf hm
    split
    · next hstep =>
      rw [hstep] at hturn
      obtain ⟨hf₁, hm₁⟩ := hturn.running
      obtain ⟨Δ, hf₁⟩ := hf₁.exists_runs hL
      exact ih hf₁ hm₁
    · next hstep =>
      rw [hstep] at hturn
      exact hturn.finished
    · next hstep =>
      rw [hstep] at hturn
      exact hturn.failed.2

/-! ## Scripts -/

/-- A script starts with nothing but itself in its frame. -/
theorem runs_scriptFrame {script : Function Value} (hscript : L.Has script)
    (harity : script.arity = 0) (hcaptures : script.captureCount = 0) :
    ∃ Γ, (scriptFrame script).Runs L Γ := by
  obtain ⟨Γ, hΓ, hlen⟩ := (L.typing script hscript).start
  have hallowed : L.Allows script 0 := hcaptures ▸ L.allows script hscript
  refine ⟨Γ, ⟨hscript, hΓ, hallowed, fun v hv => ?_⟩, ?_⟩
  · rw [Array.mem_singleton.mp hv]
    exact .of_function hallowed
  · show 1 = Γ.length
    rw [hlen, harity]

theorem Machine.IsSound.settle (h : m.IsSound L host) : m.settle.IsSound L host :=
  ⟨h.globals, h.cells, fun _ hf => absurd hf List.not_mem_nil, h.natives⟩

theorem Machine.IsSound.defineNative (h : m.IsSound L host) (s : Signature) :
    (m.defineNative s).IsSound L host := by
  have hnative : (Value.native (s.make m.store).1).IsSound L := .of_code rfl
  have hstore : ({ m with store := (s.make m.store).2 } : Machine World).IsSound L host :=
    h.withStore h.cells
  exact hstore.define _ hnative

end ScriptEngine
