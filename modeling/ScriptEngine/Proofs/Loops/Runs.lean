import ScriptEngine.Proofs.Loops.Steps
import ScriptEngine.Proofs.Machine.Mixed
set_option autoImplicit false

/-!
# Runs of twins

Twins do not make the same number of steps, since one of them may have jumps that the other one
does without.  However far they have to be followed, there is a point for each of them where they
are twins again (`exists_ending_twins`), so that one of them ends if the other one does, and in the
same way (`ends_of_twins`).
-/

namespace ScriptEngine

open Machine

variable {World : Type}

/-! ## Ends of runs -/

/-- Both runs have returned twins, or have failed for the same reason, or have got to twins. -/
inductive Ending.Twins (W : Likeness World) : Ending World → Ending World → Prop where
  | returned {P : Cell → Cell → Prop} {v v' : Value} {m m' : Machine World} (value : v.Twins P v')
      (machine : m.Twins W P m') : Twins W (.returned v m) (.returned v' m')
  | raised {P : Cell → Cell → Prop} {e e' : RuntimeError} {m m' : Machine World}
      (fault : e'.fault = e.fault) (machine : m.Twins W P m') :
      Twins W (.raised e m) (.raised e' m')
  | unfinished {P : Cell → Cell → Prop} {f f' : Frame} {m m' : Machine World}
      (frame : f.Twins P f') (machine : m.Twins W P m') :
      Twins W (.unfinished f m) (.unfinished f' m')

/-- The run has ended. -/
def Ending.IsOver (e : Ending World) : Prop := ∀ f m, e ≠ .unfinished f m

theorem Ending.Twins.isOver_iff {W : Likeness World} {e e' : Ending World} (h : e.Twins W e') :
    e.IsOver ↔ e'.IsOver := by
  cases h with
  | unfinished => exact iff_of_false (fun hover => hover _ _ rfl) fun hover => hover _ _ rfl
  | _ => exact iff_of_true (fun _ _ => nofun) fun _ _ => nofun

/-! ## Rounds -/

section Runs

variable {L : Library} {host : Host World} {W : Likeness World} {P : Cell → Cell → Prop}
  {f f' : Frame} {m m' : Machine World}

/-- Twins get to the first instructions on their course, and make a step there. -/
theorem exists_round (hL : ∀ g : Function Value, g.IsCompiled → L.Has g) (hfair : host.IsFair W)
    (hf : f.Twins P f') (h : m.Twins W P m') (hruns : f.MayRun L.amongAll)
    (hm : m.IsSound L.amongAll host) :
    ∃ a b, 0 < a ∧ 0 < b ∧ (ending host a m f).Twins W (ending host b m' f') := by
  obtain ⟨level, homes, homes', rest, habreast, hends, hfollows, hfollows'⟩ := hf
  obtain ⟨a, ip, hreach, hmeets⟩ := hfollows.arrives host m f.slots
  obtain ⟨b, ip', hreach', hmeets'⟩ := hfollows'.arrives host m' f'.slots
  have hreach : ending host a m f = .unfinished (f.goTo ip f.slots) m := hreach
  have hreach' : ending host b m' f' = .unfinished (f'.goTo ip' f'.slots) m' := hreach'
  obtain ⟨Δ, hthere⟩ := (mayRun_of_unfinished hruns hm hreach).1.runs (hL _ habreast.compiled)
  have hstep := h.step hfair (habreast.goTo ip ip' habreast.slots) hthere hends hmeets hmeets'
  refine ⟨a + 1, b + 1, Nat.succ_pos a, Nat.succ_pos b, ?_⟩
  rw [ending_add hreach, ending_add hreach', ending_succ, ending_succ]
  generalize m.step host (f.goTo ip f.slots) = p, m'.step host (f'.goTo ip' f'.slots) = p' at hstep
  cases hstep with
  | running frame machine => exact .unfinished frame machine
  | finished value machine => exact .returned value machine
  | failed machine => exact .raised rfl machine

/-- However far twins are followed, there is a point further on where they are twins again. -/
theorem exists_ending_twins (hL : ∀ g : Function Value, g.IsCompiled → L.Has g)
    (hfair : host.IsFair W) (hf : f.Twins P f') (h : m.Twins W P m') (hruns : f.MayRun L.amongAll)
    (hm : m.IsSound L.amongAll host) (n : Nat) :
    ∃ a b, n ≤ a ∧ n ≤ b ∧ (ending host a m f).Twins W (ending host b m' f') := by
  induction n with
  | zero => exact ⟨0, 0, Nat.le_refl 0, Nat.le_refl 0, .unfinished hf h⟩
  | succ n ih =>
    obtain ⟨a, b, ha, hb, htwins⟩ := ih
    by_cases hover : (ending host a m f).IsOver
    · refine ⟨a + 1, b + 1, Nat.succ_le_succ ha, Nat.succ_le_succ hb, ?_⟩
      rwa [ending_eq_of_le (Nat.le_succ a) hover,
        ending_eq_of_le (Nat.le_succ b) (htwins.isOver_iff.mp hover)]
    · generalize hx : ending host a m f = x, hy : ending host b m' f' = y at htwins hover
      cases htwins with
      | unfinished frame machine =>
        obtain ⟨hthere, hsound⟩ := mayRun_of_unfinished hruns hm hx
        obtain ⟨c, d, hc, hd, hround⟩ := exists_round hL hfair frame machine hthere hsound
        refine ⟨a + c, b + d, by omega, by omega, ?_⟩
        rwa [ending_add hx, ending_add hy]
      | _ => exact absurd (fun _ _ => nofun) hover

/-- If one of two twins ends, then the other one does, and they end as twins. -/
theorem ends_of_twins (hL : ∀ g : Function Value, g.IsCompiled → L.Has g)
    (hfair : host.IsFair W) (hf : f.Twins P f') (h : m.Twins W P m') (hruns : f.MayRun L.amongAll)
    (hm : m.IsSound L.amongAll host) :
    (∀ n, (ending host n m f).IsOver → ∃ k, (ending host n m f).Twins W (ending host k m' f')) ∧
      ∀ n, (ending host n m' f').IsOver →
        ∃ k, (ending host k m f).Twins W (ending host n m' f') := by
  constructor
  · intro n hover
    obtain ⟨a, b, ha, -, htwins⟩ := exists_ending_twins hL hfair hf h hruns hm n
    rw [ending_eq_of_le ha hover] at htwins
    exact ⟨b, htwins⟩
  · intro n hover
    obtain ⟨a, b, -, hb, htwins⟩ := exists_ending_twins hL hfair hf h hruns hm n
    rw [ending_eq_of_le hb hover] at htwins
    exact ⟨a, htwins⟩

end Runs

end ScriptEngine
