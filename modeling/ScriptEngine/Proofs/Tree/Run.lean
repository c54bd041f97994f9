import ScriptEngine.Proofs.Machine.Instructions
import ScriptEngine.Proofs.Machine.Reach
import ScriptEngine.Proofs.Tree.Code
set_option autoImplicit false

/-!
# Runs of program trees

While the machine runs the code of a tree, its state is given by the memory that the
tree has been interpreted in so far, the place in the code and the values that are
waited for (`Spot`).  The machine executes an interpretation (`Executes`) if it gets
from one spot to another one whenever the interpretation gives a result, ends or fails
as the interpretation does, and takes many steps if the interpretation is given up.

Executions are put together as interpretations are (`Executes.bind`); moves of the
machine that no interpretation takes part in may stand before and behind them
(`Executes.after`, `Executes.before`).
-/

namespace ScriptEngine

open Machine

variable {World : Type}

/-! ## Code in a row -/

namespace Chunk.Holds

variable {c : Chunk Value} {o : Nat} {a b : List UInt8}

theorem of_code (h : c.code.toList = a) : c.Holds 0 a := by
  intro i byte hi
  rw [Nat.zero_add, ← Array.getElem?_toList, h, hi]

theorem left (h : c.Holds o (a ++ b)) : c.Holds o a := by
  intro i byte hi
  refine h i byte ?_
  obtain ⟨hlt, -⟩ := List.getElem?_eq_some_iff.mp hi
  rw [List.getElem?_append_left hlt, hi]

theorem right (h : c.Holds o (a ++ b)) : c.Holds (o + a.length) b := by
  intro i byte hi
  have hbyte := h (a.length + i) byte (by
    rw [List.getElem?_append_right (Nat.le_add_right _ _), Nat.add_sub_cancel_left, hi])
  rwa [Nat.add_assoc]

end Chunk.Holds

namespace Tree

/-! ## Stacks -/

/-- The slots of a frame that holds some values, the one on top first. -/
def slotsOf (stack : List Value) : Array Value := stack.reverse.toArray

theorem slotsOf_push (stack : List Value) (v : Value) :
    (slotsOf stack).push v = slotsOf (v :: stack) := by
  simp [slotsOf]

theorem slotsOf_pop (stack : List Value) (v : Value) :
    (slotsOf (v :: stack)).pop = slotsOf stack := by
  simp [slotsOf]

theorem slotsOf_back (stack : List Value) (v : Value) :
    (slotsOf (v :: stack)).back? = some v := by
  simp [slotsOf]

theorem slotsOf_size (stack : List Value) : (slotsOf stack).size = stack.length := by
  simp [slotsOf]

theorem slotsOf_get (above below : List Value) (v : Value) :
    (slotsOf (above ++ v :: below))[below.length]? = some v := by
  simp [slotsOf]

theorem slotsOf_set (above below : List Value) (v w : Value) :
    (slotsOf (above ++ v :: below)).setIfInBounds below.length w =
      slotsOf (above ++ w :: below) := by
  simp [slotsOf]

theorem slotsOf_take (above below : List Value) :
    (slotsOf (above ++ below)).take below.length = slotsOf below := by
  simp [slotsOf, Array.take]

/-- The values above a slot are on top of it, the last one first. -/
theorem slotsOf_extract (above below : List Value) (v : Value) :
    ((slotsOf (above ++ v :: below)).extract (below.length + 1)
      (slotsOf (above ++ v :: below)).size).toList = above.reverse := by
  have hdrop : (below.reverse ++ v :: above.reverse).drop (below.length + 1) =
      above.reverse := by
    rw [← List.drop_drop, show below.length = below.reverse.length from List.length_reverse.symm,
      List.drop_left]
    rfl
  rw [slotsOf, List.extract_toArray, List.extract_eq_take_drop]
  simp only [List.reverse_append, List.reverse_cons, List.append_assoc, List.cons_append,
    List.nil_append, hdrop]
  exact List.take_of_length_le (by simp; omega)

/-- The frame of a script with some values in its slots, the one on top first. -/
def frameOf (script : Function Value) (ip : Nat) (stack : List Value) : Frame where
  function := script
  cells := #[]
  ip
  slots := slotsOf stack

section Frames

variable (script : Function Value) (ip ip' : Nat) (stack : List Value) (v : Value)

theorem frameOf_push :
    (frameOf script ip stack).goTo ip' ((frameOf script ip stack).slots.push v) =
      frameOf script ip' (v :: stack) :=
  congrArg (Frame.mk script #[] ip') (slotsOf_push stack v)

theorem frameOf_pop :
    (frameOf script ip (v :: stack)).goTo ip' (frameOf script ip (v :: stack)).slots.pop =
      frameOf script ip' stack :=
  congrArg (Frame.mk script #[] ip') (slotsOf_pop stack v)

end Frames

/-! ## Memory of the machine -/

namespace Memory

/-- The values of the local variables, newest first. -/
def locals (σ : Memory World) : List Value := σ.scopes.flatten.map Prod.snd

/-- The names of the local variables by block. -/
def names (σ : Memory World) : List (List String) := σ.scopes.map fun s => s.map Prod.fst

/-- The machine beside the frame of the script. -/
def machine (σ : Memory World) : Machine World :=
  { globals := σ.globals, store := σ.store, world := σ.world }

/-- No variable holds a function. -/
structure IsData (σ : Memory World) : Prop where
  locals : ∀ v ∈ σ.locals, v.isData = true
  globals : ∀ x v, σ.globals.get? x = some v → v.isData = true

end Memory

/-- A place in the code of a script. -/
structure Spot where
  /-- The names in scope, by block. -/
  scopes : List (List String)
  ip : Nat
  /-- The values above the local variables, newest first. -/
  temps : List Value

namespace Spot

/-- The frame of a script at a spot. -/
def frame (p : Spot) (script : Function Value) (σ : Memory World) : Frame :=
  frameOf script p.ip (p.temps ++ (σ.locals ++ [.function script]))

/-- The memory has just the variables that are in scope at a spot. -/
structure Admits (p : Spot) (σ : Memory World) : Prop where
  names : σ.names = p.scopes
  data : σ.IsData
  temps : ∀ v ∈ p.temps, v.isData = true

end Spot

/-! ## Executions -/

section Executions

variable {α β : Type} (host : Host World) (script : Function Value) (fuel : Nat)

/-- A run from here ends as an interpretation does.  One that was given up has taken at
least `fuel` steps. -/
def EndsAs (m : Machine World) (f : Frame) : Stop → Memory World → Prop
  | .returned v, σ => ∃ n, ending host n m f = .returned v σ.machine
  | .raised fault, σ => ∃ n e, ending host n m f = .raised e σ.machine ∧ e.fault = fault
  | .exhausted, _ => ∃ n g k, fuel ≤ n ∧ ending host n m f = .unfinished g k

/-- The machine moves from one spot to another and changes nothing else. -/
def Moves (World : Type) (host : Host World) (script : Function Value) (p q : Spot) : Prop :=
  ∀ σ : Memory World, p.Admits σ → q.Admits σ ∧
    ∃ n, ending host n σ.machine (p.frame script σ) = .unfinished (q.frame script σ) σ.machine

/-- The machine does from a spot on what an interpretation does. -/
def Executes (start : Spot) (run : Run World α) (finish : α → Spot) : Prop :=
  ∀ σ : Memory World, start.Admits σ →
    match run.run σ with
    | (.ok a, σ') => (finish a).Admits σ' ∧
        ∃ n, ending host n σ.machine (start.frame script σ) =
          .unfinished ((finish a).frame script σ') σ'.machine
    | (.error stop, σ') => EndsAs host fuel σ.machine (start.frame script σ) stop σ'

end Executions

section Rules

variable {α β : Type} {host : Host World} {script : Function Value} {fuel : Nat}
  {p q r : Spot}

theorem run_bind (first : Run World α) (next : α → Run World β) (σ : Memory World) :
    (first >>= next).run σ =
      match first.run σ with
      | (.ok a, σ') => (next a).run σ'
      | (.error stop, σ') => (.error stop, σ') := by
  show (match first.run σ with
    | (a, σ') => ExceptT.bindCont next a σ') = _
  rcases first.run σ with ⟨_ | _, _⟩ <;> rfl

theorem EndsAs.after {m m' : Machine World} {f f' : Frame} {n : Nat}
    (h : ending host n m f = .unfinished f' m') {stop : Stop} {σ : Memory World}
    (hends : EndsAs host fuel m' f' stop σ) : EndsAs host (n + fuel) m f stop σ := by
  cases stop with
  | returned v =>
    obtain ⟨k, hk⟩ := hends
    exact ⟨n + k, (ending_add h k).trans hk⟩
  | raised fault =>
    obtain ⟨k, e, hk, he⟩ := hends
    exact ⟨n + k, e, (ending_add h k).trans hk, he⟩
  | exhausted =>
    obtain ⟨k, g, l, hle, hk⟩ := hends
    exact ⟨n + k, g, l, Nat.add_le_add_left hle n, (ending_add h k).trans hk⟩

theorem EndsAs.mono {fuel' : Nat} (hle : fuel' ≤ fuel) {m : Machine World} {f : Frame}
    {stop : Stop} {σ : Memory World} (h : EndsAs host fuel m f stop σ) :
    EndsAs host fuel' m f stop σ := by
  cases stop with
  | returned v => exact h
  | raised fault => exact h
  | exhausted =>
    obtain ⟨n, g, k, hn, hk⟩ := h
    exact ⟨n, g, k, Nat.le_trans hle hn, hk⟩

theorem EndsAs.of_failed {m : Machine World} {f : Frame} {fault : Fault} {ip : Nat}
    {σ : Memory World} (h : m.step host f = .failed ⟨fault, ip⟩ σ.machine) :
    EndsAs host fuel m f (.raised fault) σ :=
  ⟨1, .ofFailure ⟨fault, ip⟩ f.function [], by rw [ending_succ, h]; rfl, rfl⟩

theorem Moves.refl (p : Spot) : Moves World host script p p := fun _ hσ => ⟨hσ, 0, rfl⟩

/-- A move by one step. -/
theorem Moves.step
    (h : ∀ σ : Memory World, p.Admits σ → q.Admits σ ∧
      σ.machine.step host (p.frame script σ) = .running (q.frame script σ) σ.machine) :
    Moves World host script p q := by
  intro σ hσ
  obtain ⟨hq, hstep⟩ := h σ hσ
  exact ⟨hq, exists_ending_of_step hstep⟩

/-- The machine moves before an execution. -/
theorem Executes.after {run : Run World α} {finish : α → Spot}
    (h : Executes host script fuel q run finish) (hmove : Moves World host script p q) :
    Executes host script fuel p run finish := by
  intro σ hσ
  obtain ⟨hq, n, hn⟩ := hmove σ hσ
  have hrun := h σ hq
  split
  · next a σ' heq =>
    rw [heq] at hrun
    obtain ⟨hfinish, k, hk⟩ := hrun
    exact ⟨hfinish, n + k, (ending_add hn k).trans hk⟩
  · next stop σ' heq =>
    rw [heq] at hrun
    exact EndsAs.mono (Nat.le_add_left _ _) (EndsAs.after hn hrun)

/-- One interpretation after the other, of which the second one may count on what the
first one can give. -/
theorem Executes.bind_of {first : Run World α} {next : α → Run World β} {mid : α → Spot}
    {finish : β → Spot} (h : Executes host script fuel p first mid)
    (k : ∀ a, (∃ σ σ', first.run σ = (.ok a, σ')) →
      Executes host script fuel (mid a) (next a) finish) :
    Executes host script fuel p (first >>= next) finish := by
  intro σ hσ
  have hfirst := h σ hσ
  rw [run_bind]
  rcases heq : first.run σ with ⟨stop | a, σ'⟩
  · rw [heq] at hfirst
    exact hfirst
  · rw [heq] at hfirst
    obtain ⟨hmid, n, hn⟩ := hfirst
    have hnext := k a ⟨σ, σ', heq⟩ σ' hmid
    dsimp only
    split
    · next b σ'' heq' =>
      rw [heq'] at hnext
      obtain ⟨hfinish, l, hl⟩ := hnext
      exact ⟨hfinish, n + l, (ending_add hn l).trans hl⟩
    · next stop σ'' heq' =>
      rw [heq'] at hnext
      exact EndsAs.mono (Nat.le_add_left _ _) (EndsAs.after hn hnext)

theorem Executes.bind {first : Run World α} {next : α → Run World β} {mid : α → Spot}
    {finish : β → Spot} (h : Executes host script fuel p first mid)
    (k : ∀ a, Executes host script fuel (mid a) (next a) finish) :
    Executes host script fuel p (first >>= next) finish :=
  h.bind_of fun a _ => k a

/-- A result is given without any step. -/
theorem Executes.pure {a : α} {finish : α → Spot} (h : Moves World host script p (finish a)) :
    Executes host script fuel p (pure a) finish := fun σ hσ => h σ hσ

/-- The machine moves after an execution. -/
theorem Executes.before {run : Run World α} {mid finish : α → Spot}
    (h : Executes host script fuel p run mid)
    (hmove : ∀ a, Moves World host script (mid a) (finish a)) :
    Executes host script fuel p run finish := by
  rw [← bind_pure run]
  exact h.bind fun a => .pure (hmove a)

/-- A step that fails as the interpretation does. -/
theorem Executes.raise {fault : Fault} {finish : α → Spot}
    (h : ∀ σ : Memory World, p.Admits σ → ∃ ip,
      σ.machine.step host (p.frame script σ) = .failed ⟨fault, ip⟩ σ.machine) :
    Executes host script fuel p (raise fault) finish := by
  intro σ hσ
  obtain ⟨ip, hstep⟩ := h σ hσ
  exact EndsAs.of_failed hstep

end Rules

end Tree

end ScriptEngine
