import ScriptEngine.Proofs.Compile.Rows
import ScriptEngine.Proofs.Heights
import ScriptEngine.Proofs.Joined.Script
set_option autoImplicit false

/-!
# Compilation: identities of functions

The functions of a source are numbered in the order in which they are finished
(`Actions.isNumbered`), so that two functions of one script with the same identity are the same
(`eq_of_id`).
-/

namespace ScriptEngine

namespace Compile.State

variable {firstId : Identity} {s t : State}

/-- The functions have identities from `firstId` on, in the order in which they were finished. -/
structure IsNumbered (firstId : Identity) (s : State) : Prop where
  next : s.nextId = firstId + s.finished.size
  ids : ∀ (i : Nat) (done : Finished), s.finished[i]? = some done →
    done.function.id = firstId + i

theorem IsNumbered.congr (h : s.IsNumbered firstId) (hfinished : t.finished = s.finished)
    (hnext : t.nextId = s.nextId) : t.IsNumbered firstId where
  next := by rw [hnext, hfinished, h.next]
  ids := by
    rw [hfinished]
    exact h.ids

theorem nextId_complainAt (s : State) (t : Token) (c : Complaint) :
    (s.complainAt t c).nextId = s.nextId := by
  unfold complainAt
  split <;> rfl

theorem nextId_pull (s : State) (ts : List Token) : (s.pull ts).nextId = s.nextId := by
  induction ts generalizing s with
  | nil => rfl
  | cons t ts ih =>
    unfold pull
    split
    · rw [ih, nextId_complainAt]
      rfl
    · rfl

theorem nextId_guarantee (s : State) (holds : Bool) (d : Defect) :
    (s.guarantee holds d).nextId = s.nextId := by
  unfold guarantee
  split <;> rfl

/-- What does not leave a function neither finishes one nor uses an identity up. -/
theorem Edit.unnumbered (h : Edit s t) : t.finished = s.finished ∧ t.nextId = s.nextId := by
  cases h with
  | read => exact ⟨(steady_read s).finished, nextId_pull s.tick s.rest⟩
  | complain => exact ⟨(steady_complainAt ..).finished, nextId_complainAt ..⟩
  | landJump operand =>
    refine ⟨(steady_landJump ..).finished, ?_⟩
    unfold State.landJump
    dsimp only
    split
    · exact nextId_guarantee ..
    · exact (nextId_complainAt ..).trans (nextId_guarantee ..)
  | loopBack start =>
    refine ⟨(steady_loopBack ..).finished, ?_⟩
    unfold State.loopBack
    dsimp only
    split
    · exact nextId_guarantee ..
    · exact (nextId_complainAt ..).trans (nextId_guarantee ..)
  | pool v =>
    refine ⟨(steady_poolConstant ..).finished, ?_⟩
    unfold State.poolConstant
    dsimp only
    split
    · rfl
    · exact nextId_complainAt ..
  | _ => exact ⟨rfl, rfl⟩

theorem Action.isNumbered (h : Action s t) (hs : s.IsNumbered firstId) (hq : t.IsQuiet) :
    t.IsNumbered firstId := by
  cases h with
  | edit h => exact hs.congr h.unnumbered.1 h.unnumbered.2
  | leave =>
    have hempty : s.diagnostics.isEmpty = true := Array.isEmpty_iff.mpr hq
    have hfinished : (s.leaveFunction (s.builder.finish s.nextId)).finished =
        s.finished.push ⟨s.builder.finish s.nextId, s.builder.checkpoints⟩ := if_pos hempty
    refine ⟨?_, fun i done hdone => ?_⟩
    · rw [hfinished, Array.size_push, ← Nat.add_assoc, ← hs.next]
      rfl
    · rw [hfinished, Array.getElem?_push] at hdone
      split at hdone
      · next hi =>
        obtain rfl := Option.some.inj hdone
        rw [hi, ← hs.next]
        rfl
      · exact hs.ids i done hdone
  | _ => exact hs.congr rfl rfl

theorem Actions.isNumbered (h : Actions s t) (hs : s.IsNumbered firstId) (hq : t.IsQuiet) :
    t.IsNumbered firstId := by
  induction h with
  | refl => exact hs
  | tail _ act ih => exact act.isNumbered (ih (act.isQuiet hq)) hq

end Compile.State

open Compile

variable {firstId : Identity} {source : String} {script p q : Function Value}

/-- The functions of a source that compiles are numbered, with the script as the last one. -/
theorem ids_of_compile (hok : (compile firstId source).outcome = .ok script) :
    (∀ (i : Nat) (done : Finished), (compile firstId source).finished[i]? = some done →
      done.function.id = firstId + i) ∧
    script.id + 1 = firstId + (compile firstId source).finished.size := by
  obtain ⟨hq, hscript, hnext⟩ := compile_eq_ok hok
  have hstart : (initial firstId (scan source)).IsNumbered firstId :=
    ⟨rfl, fun i done hdone => nomatch hdone⟩
  have hacts : State.Actions (initial firstId (scan source))
      (compileTokens firstId (scan source)).returnNil.leaveFinished :=
    ((actions_compileTokens firstId (scan source)).trans
      (State.edits_returnNil _).actions).tail (.leave _)
  have hend := State.Actions.isNumbered hacts hstart hq
  refine ⟨hend.ids, ?_⟩
  rw [hscript]
  exact hend.next

/-- Functions of one script with the same identity are the same. -/
theorem eq_of_id (hok : (compile firstId source).outcome = .ok script) (hp : p.Within script)
    (hq : q.Within script) (hid : p.id = q.id) : p = q := by
  have hsucceeds := succeeds_of_compile hok
  obtain ⟨done, hdone, rfl⟩ := exists_finished hsucceeds hp
  obtain ⟨done', hdone', rfl⟩ := exists_finished hsucceeds hq
  obtain ⟨i, hi⟩ := Array.getElem?_of_mem hdone
  obtain ⟨j, hj⟩ := Array.getElem?_of_mem hdone'
  obtain ⟨hids, -⟩ := ids_of_compile hok
  have hij : i = j := by
    rw [hids i done hi, hids j done' hj] at hid
    exact Nat.add_left_cancel hid
  subst hij
  rw [Option.some.inj (hi.symm.trans hj)]

end ScriptEngine
