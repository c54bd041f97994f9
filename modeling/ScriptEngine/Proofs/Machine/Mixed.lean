import ScriptEngine.Proofs.Machine.Calls
set_option autoImplicit false

/-!
# Machine: compiled code among other code

Natives may make up code of any kind, and sessions may run such code as well.  None of
it can disturb the frames of compiled functions: it leaves the frames that wait alone,
and it enters a function with as many values as that takes.  So the frames of a library
always have the slots of their layouts (`mayRun_of_unfinished`).
-/

namespace ScriptEngine

open Machine

variable {World : Type} {L : Library} {host : Host World} {m m' : Machine World} {f f' : Frame}

theorem Value.isSound_amongAll (L : Library) (v : Value) : v.IsSound L.amongAll :=
  fun _ _ _ => trivial

theorem Machine.isSound_amongAll (host : Host World)
    (hcallers : ∀ c ∈ m.callers, c.MayWait L.amongAll) : m.IsSound L.amongAll host where
  globals _ v _ := v.isSound_amongAll L
  cells v _ := v.isSound_amongAll L
  callers := hcallers
  natives := Host.gives_of_forall (fun v => v.isSound_amongAll L) m.world

/-- Other code is not in the library, and nothing is asked of its frames. -/
theorem Frame.MayRun.of_not_has (h : ¬ L.Has f.function) : f.MayRun L.amongAll :=
  ⟨trivial, fun hhas => absurd hhas h⟩

theorem Frame.MayWait.of_not_has (h : ¬ L.Has f.function) : f.MayWait L.amongAll :=
  ⟨trivial, fun hhas => absurd hhas h⟩

/-- A function is entered with the slots that it starts with. -/
theorem Frame.MayRun.start (L : Library) (hip : f.ip = 0)
    (hsize : f.slots.size = f.function.arity + 1) : f.MayRun L.amongAll := by
  refine ⟨trivial, fun hhas => ?_⟩
  obtain ⟨Γ, hΓ, hlen⟩ := (L.typing f.function hhas).start
  exact ⟨Γ, ⟨hhas, hip ▸ hΓ, trivial, fun v _ => v.isSound_amongAll L⟩, hsize.trans hlen.symm⟩

/-- Whatever code a step belongs to, it leaves the layouts of the library's frames in order. -/
theorem mayRun_of_step (hf : f.MayRun L.amongAll) (hm : m.IsSound L.amongAll host)
    (hstep : m.step host f = .running f' m') :
    f'.MayRun L.amongAll ∧ m'.IsSound L.amongAll host := by
  by_cases hhas : L.Has f.function
  · obtain ⟨Γ, hruns⟩ := hf.runs hhas
    have hturn := turn_of_step hruns hm
    rw [hstep] at hturn
    exact hturn.running
  · cases passage_of_step hstep with
    | within function spares =>
      exact ⟨.of_not_has (function ▸ hhas),
        isSound_amongAll host (spares.callers ▸ hm.callers)⟩
    | @enters argc base _ _ _ size _ arity start slots callers _ =>
      refine ⟨.start L start ?_, isSound_amongAll host ?_⟩
      · rw [slots, Array.size_extract, arity]
        omega
      · rw [callers]
        exact List.forall_mem_cons.mpr ⟨.of_not_has hhas, hm.callers⟩
    | returns _ _ callers =>
      have hall := hm.callers
      rw [callers] at hall
      obtain ⟨hcaller, hrest⟩ := List.forall_mem_cons.mp hall
      exact ⟨hcaller.push (Value.isSound_amongAll L _), isSound_amongAll host hrest⟩

/-- However long a run is, the library's frames have the slots of their layouts. -/
theorem mayRun_of_unfinished (hf : f.MayRun L.amongAll) (hm : m.IsSound L.amongAll host) {n : Nat}
    (h : ending host n m f = .unfinished f' m') :
    f'.MayRun L.amongAll ∧ m'.IsSound L.amongAll host := by
  induction n generalizing f' m' with
  | zero =>
    cases h
    exact ⟨hf, hm⟩
  | succ n ih =>
    obtain ⟨g, k, hbefore, hstep⟩ := ending_succ_eq_unfinished_iff.mp h
    obtain ⟨hg, hk⟩ := ih hbefore
    exact mayRun_of_step hg hk hstep

end ScriptEngine
