import ScriptEngine.Proofs.Machine.Moves
import ScriptEngine.Proofs.Machine.Reading
set_option autoImplicit false

/-!
# Machine: instructions that fail

An instruction reads, checks and changes one thing after the other, and nothing takes back
what it has changed when it breaks off.  `Machine.stepInPlace` carries out instructions in
this way, in the order in which they do things, whereas `Machine.step` concludes from an
instruction that failed that the machine is as before.

The two agree on every instruction that goes through (`stepInPlace_cases`).  Of one that
breaks off there can be left some cells that nothing refers to, and entries in the table of
open cells (`Machine.Marred`).
-/

namespace ScriptEngine

open Machine

variable {World : Type}

/-! ## What is left of an instruction -/

/-- The machine is what it was, but for cells that are new and for its open cells. -/
structure Machine.Marred (m k : Machine World) : Prop where
  globals : k.globals = m.globals
  store : m.store.Spares k.store
  world : k.world = m.world
  callers : k.callers = m.callers

theorem Machine.Marred.refl (m : Machine World) : m.Marred m := ⟨rfl, .refl _, rfl, rfl⟩

theorem Machine.Marred.trans {m k l : Machine World} (h : m.Marred k) (h' : k.Marred l) :
    m.Marred l :=
  ⟨h'.globals.trans h.globals, h.store.trans h'.store, h'.world.trans h.world,
    h'.callers.trans h.callers⟩

theorem Machine.marred_withOpenCells (m : Machine World) (openCells : OpenCells) :
    m.Marred { m with openCells } := ⟨rfl, .refl _, rfl, rfl⟩

theorem Machine.marred_cellFor (m : Machine World) (slot : Nat) (v : Value) :
    m.Marred (m.cellFor slot v).2 := by
  unfold cellFor
  dsimp only
  split
  · exact .refl m
  · refine ⟨rfl, ⟨?_, fun c hc => Store.read_alloc_of_lt v hc⟩, rfl, rfl⟩
    simp [Store.alloc]

/-! ## Deeds -/

/-- What is done to a machine step by step.  A deed that breaks off leaves the machine as it
is at that moment. -/
abbrev Deed (World α : Type) : Type := ExceptT Failure (StateM (Machine World)) α

namespace Deed

/-- Where a deed leads that begins with the machine `m`. -/
def progress (d : Deed World Frame) (m : Machine World) : Progress World :=
  match d m with
  | (.ok f, k) => .running f k
  | (.error failure, k) => .failed failure k

/-- Pushes the value of a global. -/
def loadGlobal (f : Frame) : Deed World Frame := do
  let (name, f) ← f.fetchName
  let value ← f.expect (.undefinedVariable name) ((← get).globals.get? name)
  return f.push value

/-- Takes a value and defines a global with it. -/
def introduceGlobal (f : Frame) : Deed World Frame := do
  let (name, f) ← f.fetchName
  let (value, f) ← f.pop
  modify fun m => { m with globals := m.globals.define name value }
  return f

/-- Assigns to a global that is defined. -/
def storeGlobal (f : Frame) : Deed World Frame := do
  let (name, f) ← f.fetchName
  let value ← f.peek
  let globals ← f.expect (.undefinedVariable name) ((← get).globals.assign? name value)
  modify fun m => { m with globals }
  return f

/-- Pushes the content of a captured cell. -/
def loadUpvalue (f : Frame) : Deed World Frame := do
  let (index, f) ← f.fetch
  let cell ← f.capturedCell index.toNat
  return f.push ((← get).store.read cell)

/-- Replaces the content of a captured cell. -/
def storeUpvalue (f : Frame) : Deed World Frame := do
  let (index, f) ← f.fetch
  let value ← f.peek
  let cell ← f.capturedCell index.toNat
  modify fun m => { m with store := m.store.write cell value }
  return f

/-- Gives up the open cell of the slot on top, and then takes the value there. -/
def retireUpvalue (f : Frame) : Deed World Frame := do
  modify fun m => { m with openCells := m.openCells.erase ⟨m.depth, f.slots.size - 1⟩ }
  let (_, f) ← f.pop
  return f

/-- Reads what one more cell of a closure is taken from, and takes it.  A new cell is in the
store and in the table from now on. -/
def takeCell (f : Frame) (taken : Taken) : Deed World (Taken × Frame) := do
  let (isLocal, f) ← f.fetch
  let (index, f) ← f.fetch
  let index := index.toNat
  if isLocal = 1 then
    if index = f.slots.size then
      let cell ← modifyGet fun m => m.cellFor index .nil
      return (⟨taken.cells.push cell, some cell⟩, f)
    else
      let value ← f.slot index
      let cell ← modifyGet fun m => m.cellFor index value
      return ({ taken with cells := taken.cells.push cell }, f)
  else
    let cell ← f.capturedCell index
    return ({ taken with cells := taken.cells.push cell }, f)

/-- Takes `count` more cells for a closure. -/
def takeCells : Nat → Frame → Taken → Deed World (Taken × Frame)
  | 0, f, taken => return (taken, f)
  | count + 1, f, taken => do
      let (taken, f) ← takeCell f taken
      takeCells count f taken

/-- Makes a closure once all its cells are there. -/
def finishClosure (function : Function Value) (taken : Taken) (m : Machine World) :
    Value × Machine World :=
  let (id, store) := m.store.freshId
  let closure := .closure ⟨id, function, taken.cells⟩
  (closure, { m with store := fill store taken.own closure })

/-- Pushes a new closure of a function. -/
def closeOver (f : Frame) : Deed World Frame := do
  let (function, f) ← f.fetchFunction
  let (taken, f) ← takeCells function.captureCount f {}
  let closure ← modifyGet (finishClosure function taken)
  return f.push closure

end Deed

namespace Machine

/-- Carries out an instruction whose opcode has been read.  Calls and returns change nothing
before they have checked everything, but for what a native does. -/
def carryOutInPlace (m : Machine World) (host : Host World) (f : Frame) (op : Opcode) :
    Progress World :=
  match op with
  | .getGlobal => (Deed.loadGlobal f).progress m
  | .defineGlobal => (Deed.introduceGlobal f).progress m
  | .setGlobal => (Deed.storeGlobal f).progress m
  | .getUpvalue => (Deed.loadUpvalue f).progress m
  | .setUpvalue => (Deed.storeUpvalue f).progress m
  | .closeUpvalue => (Deed.retireUpvalue f).progress m
  | .closure => (Deed.closeOver f).progress m
  | .call => m.call host f
  | .return => m.returnFrom f
  | op => Deed.progress (liftM (runLocal op f)) m

/-- Carries out the next instruction, and keeps what it did if it breaks off. -/
def stepInPlace (m : Machine World) (host : Host World) (f : Frame) : Progress World :=
  match fetchOpcode f with
  | .error failure => .failed failure m
  | .ok (op, f) => m.carryOutInPlace host f op

end Machine

/-! ## Deeds against attempts -/

/-- With the machine `m` the deed ends as the attempt does.  If it breaks off, the machine is
marred at most. -/
inductive Deed.Does {α : Type} (d : Deed World α) (m : Machine World) :
    Attempt (α × Machine World) → Prop where
  | goes {a : α} {k : Machine World} (h : d m = (.ok a, k)) : Does d m (.ok (a, k))
  | breaks {failure : Failure} {k : Machine World} (h : d m = (.error failure, k))
      (marred : m.Marred k) : Does d m (.error failure)

namespace Deed

section Does

variable {α β γ : Type} {m : Machine World} {g : α → Deed World β}

theorem bind_eq (d : Deed World α) (g : α → Deed World β) (m : Machine World) :
    (d >>= g) m = match d m with
      | (.ok a, k) => g a k
      | (.error failure, k) => (.error failure, k) := by
  cases h : d m with
  | mk result k =>
    simp only [bind, ExceptT.bind, ExceptT.mk, StateT.bind, h]
    cases result <;> rfl

/-- What comes before the last thing that can fail has to leave alone what was there. -/
theorem Does.bind {d : Deed World α} {x : Attempt γ} {p : γ → α × Machine World}
    {y : γ → Attempt (β × Machine World)} (h : d.Does m (x.map p))
    (hmarred : ∀ c, x = .ok c → m.Marred (p c).2)
    (hg : ∀ c, x = .ok c → (g (p c).1).Does (p c).2 (y c)) :
    (d >>= g).Does m (x >>= y) := by
  have hbind := bind_eq d g m
  cases x with
  | error failure =>
    cases h with
    | breaks h marred =>
      rw [h] at hbind
      exact .breaks hbind marred
  | ok c =>
    have hd : d m = (.ok (p c).1, (p c).2) := by
      generalize hpair : (Except.ok c : Attempt γ).map p = pair at h
      cases h with
      | goes h => exact Except.ok.inj hpair ▸ h
      | breaks => cases hpair
    rw [hd] at hbind
    show Does (d >>= g) m (y c)
    have hrest := hg c rfl
    generalize y c = last at hrest
    cases hrest with
    | goes h => exact .goes (hbind.trans h)
    | breaks h marred => exact .breaks (hbind.trans h) ((hmarred c rfl).trans marred)

theorem Does.get {g : Machine World → Deed World β} {x : Attempt (β × Machine World)}
    (h : (g m).Does m x) : ((MonadState.get : Deed World (Machine World)) >>= g).Does m x := by
  cases h with
  | goes h => exact .goes h
  | breaks h marred => exact .breaks h marred

/-- Reading and checking a frame does nothing to the machine. -/
theorem does_check (x : Attempt α) (m : Machine World) :
    (liftM x : Deed World α).Does m (x.map fun a => (a, m)) := by
  cases x with
  | ok a => exact .goes rfl
  | error failure => exact .breaks rfl (.refl m)

theorem Does.check {x : Attempt α} {y : α → Attempt (β × Machine World)}
    (hg : ∀ a, x = .ok a → (g a).Does m (y a)) :
    ((liftM x : Deed World α) >>= g).Does m (x >>= y) :=
  (does_check x m).bind (fun _ _ => .refl m) hg

end Does

section Instructions

variable (m : Machine World) (f : Frame)

theorem does_loadGlobal : (loadGlobal f).Does m (m.loadGlobal f) := by
  refine Does.check ?_
  rintro ⟨name, f₁⟩ -
  exact Does.get (Does.check fun value _ => .goes rfl)

theorem does_introduceGlobal : (introduceGlobal f).Does m (m.introduceGlobal f) := by
  refine Does.check ?_
  rintro ⟨name, f₁⟩ -
  refine Does.check ?_
  rintro ⟨value, f₂⟩ -
  exact .goes rfl

theorem does_storeGlobal : (storeGlobal f).Does m (m.storeGlobal f) := by
  refine Does.check ?_
  rintro ⟨name, f₁⟩ -
  refine Does.check fun value _ => ?_
  exact Does.get (Does.check fun globals _ => .goes rfl)

theorem does_loadUpvalue : (loadUpvalue f).Does m (m.loadUpvalue f) := by
  refine Does.check ?_
  rintro ⟨index, f₁⟩ -
  exact Does.check fun cell _ => .goes rfl

theorem does_storeUpvalue : (storeUpvalue f).Does m (m.storeUpvalue f) := by
  refine Does.check ?_
  rintro ⟨index, f₁⟩ -
  refine Does.check fun value _ => ?_
  exact Does.check fun cell _ => .goes rfl

/-- The slot is given up even if there is nothing to take from it. -/
theorem does_retireUpvalue : (retireUpvalue f).Does m (m.retireUpvalue f) := by
  unfold Machine.retireUpvalue
  cases hpop : f.pop with
  | error failure =>
    refine .breaks ?_ (m.marred_withOpenCells (m.openCells.erase ⟨m.depth, f.slots.size - 1⟩))
    unfold retireUpvalue
    rw [hpop]
    rfl
  | ok result =>
    obtain ⟨value, g⟩ := result
    obtain ⟨-, rfl⟩ := Frame.pop_ok hpop
    refine .goes ?_
    unfold retireUpvalue
    rw [hpop]
    simp only [Frame.goTo, Array.size_pop]
    rfl

/-- What has been taken, with the machine beside it. -/
def regroup (t : Taken × Frame × Machine World) : (Taken × Frame) × Machine World :=
  ((t.1, t.2.1), t.2.2)

theorem map_bind {α β γ : Type} (x : Attempt α) (y : α → Attempt β) (p : β → γ) :
    (x >>= y).map p = x >>= fun a => (y a).map p := by
  cases x <;> rfl

theorem does_takeCell (taken : Taken) :
    (takeCell f taken).Does m ((m.takeCell f taken).map regroup) := by
  unfold takeCell Machine.takeCell
  rw [map_bind]
  refine Does.check ?_
  rintro ⟨isLocal, f₁⟩ -
  dsimp only
  rw [map_bind]
  refine Does.check ?_
  rintro ⟨index, f₂⟩ -
  dsimp only
  split
  · split
    · exact .goes rfl
    · rw [map_bind]
      exact Does.check fun value _ => .goes rfl
  · rw [map_bind]
    exact Does.check fun cell _ => .goes rfl

theorem marred_takeCell {m k : Machine World} {f g : Frame} {taken taken' : Taken}
    (h : m.takeCell f taken = .ok (taken', g, k)) : m.Marred k := by
  obtain ⟨⟨isLocal, f₁⟩, -, hrest⟩ := Attempt.exists_of_bind h
  obtain ⟨⟨index, f₂⟩, -, hrest⟩ := Attempt.exists_of_bind hrest
  dsimp only at hrest
  split at hrest
  · split at hrest
    · cases hrest
      exact m.marred_cellFor _ _
    · obtain ⟨v, -, hlast⟩ := Attempt.exists_of_bind hrest
      cases hlast
      exact m.marred_cellFor _ _
  · obtain ⟨cell, -, hlast⟩ := Attempt.exists_of_bind hrest
    cases hlast
    exact .refl m

theorem marred_takeCells {count : Nat} {m k : Machine World} {f g : Frame}
    {taken taken' : Taken} (h : Machine.takeCells count m f taken = .ok (taken', g, k)) :
    m.Marred k := by
  induction count generalizing m f taken with
  | zero =>
    cases h
    exact .refl _
  | succ count ih =>
    obtain ⟨⟨taken₁, f₁, m₁⟩, hone, hrest⟩ := Attempt.exists_of_bind h
    exact (marred_takeCell hone).trans (ih hrest)

theorem does_takeCells (count : Nat) (taken : Taken) :
    (takeCells count f taken).Does m ((Machine.takeCells count m f taken).map regroup) := by
  induction count generalizing m f taken with
  | zero => exact .goes rfl
  | succ count ih =>
    unfold takeCells Machine.takeCells
    rw [map_bind]
    exact (does_takeCell m f taken).bind (fun c hc => marred_takeCell hc)
      fun c _ => ih c.2.2 c.2.1 c.1

/-- The cells that were taken stay when another one cannot be. -/
theorem does_closeOver : (closeOver f).Does m (m.closeOver f) := by
  refine Does.check ?_
  rintro ⟨function, f₁⟩ -
  exact (does_takeCells m f₁ function.captureCount {}).bind (fun c hc => marred_takeCells hc)
    fun c _ => .goes rfl

end Instructions

/-- A deed leads where the attempt does, or breaks off where that fails. -/
theorem Does.progress_cases {d : Deed World Frame} {m : Machine World}
    {x : Attempt (Frame × Machine World)} (h : d.Does m x) :
    d.progress m = m.conclude x ∨
      ∃ failure k, m.conclude x = .failed failure m ∧ d.progress m = .failed failure k ∧
        m.Marred k := by
  unfold progress
  cases h with
  | goes h =>
    rw [h]
    exact .inl rfl
  | @breaks failure k h marred =>
    rw [h]
    exact .inr ⟨failure, k, rfl, rfl, marred⟩

end Deed

/-! ## Steps in place -/

section Steps

variable {host : Host World} {m k : Machine World} {f g : Frame}

theorem carryOutInPlace_cases (host : Host World) (m : Machine World) (f : Frame) (op : Opcode) :
    m.carryOutInPlace host f op = m.carryOut host f op ∨
      ∃ failure k, m.carryOut host f op = .failed failure m ∧
        m.carryOutInPlace host f op = .failed failure k ∧ m.Marred k := by
  have hcheck : (liftM (runLocal op f) : Deed World Frame).Does m
      ((runLocal op f).map fun f => (f, m)) := Deed.does_check ..
  cases op with
  | getGlobal => exact (Deed.does_loadGlobal m f).progress_cases
  | defineGlobal => exact (Deed.does_introduceGlobal m f).progress_cases
  | setGlobal => exact (Deed.does_storeGlobal m f).progress_cases
  | getUpvalue => exact (Deed.does_loadUpvalue m f).progress_cases
  | setUpvalue => exact (Deed.does_storeUpvalue m f).progress_cases
  | closeUpvalue => exact (Deed.does_retireUpvalue m f).progress_cases
  | closure => exact (Deed.does_closeOver m f).progress_cases
  | call => exact .inl rfl
  | «return» => exact .inl rfl
  | _ => exact hcheck.progress_cases

/-- A step in place leads where a step does, unless that fails.  Then it fails in the same way,
and the machine is marred at most. -/
theorem stepInPlace_cases (host : Host World) (m : Machine World) (f : Frame) :
    m.stepInPlace host f = m.step host f ∨
      ∃ failure k, m.step host f = .failed failure m ∧
        m.stepInPlace host f = .failed failure k ∧ m.Marred k := by
  unfold stepInPlace step
  cases fetchOpcode f with
  | error failure => exact .inl rfl
  | ok result => exact carryOutInPlace_cases host m result.2 result.1

end Steps

/-! ## Why a step fails -/

/-- A native has ended in an error, and `k` is the machine that it has left. -/
def Machine.FailsBy (host : Host World) (m : Machine World) (f : Frame) (k : Machine World) :
    Prop :=
  ∃ native arguments message, (∀ v ∈ arguments, v ∈ f.slots) ∧
    (host.call native arguments m.store m.world).result = .error message ∧
    k = { m with
      store := (host.call native arguments m.store m.world).store
      world := (host.call native arguments m.store m.world).world }

section Failures

variable {host : Host World} {m k : Machine World} {f g : Frame} {failure : Failure}

theorem eq_of_enter_failed {base : Nat} {p : Function Value} {cells : Array Cell}
    (h : m.enter f base p cells = .failed failure k) : k = m := by
  unfold enter wrongCount at h
  split at h
  · cases h
  · exact (Progress.failed.inj h).2.symm

theorem failsBy_of_invoke {base : Nat} {v : Value}
    (h : m.invoke host f base v = .failed failure k) : k = m ∨ m.FailsBy host f k := by
  unfold invoke at h
  split at h
  · exact .inl (eq_of_enter_failed h)
  · exact .inl (eq_of_enter_failed h)
  · next native =>
    dsimp only at h
    split at h
    · unfold invokeNative at h
      dsimp only at h
      split at h
      · cases h
      · next message herror =>
        obtain ⟨-, rfl⟩ := Progress.failed.inj h
        exact .inr ⟨native, _, message,
          fun v hv => mem_of_mem_extract (Array.mem_toList_iff.mp hv), herror, rfl⟩
    · exact .inl (Progress.failed.inj h).2.symm
  · exact .inl (Progress.failed.inj h).2.symm

/-- An instruction that fails changes nothing, unless it is a native's doing. -/
theorem failsBy_of_step (h : m.step host f = .failed failure k) :
    k = m ∨ m.FailsBy host f k := by
  unfold step at h
  split at h
  · exact .inl (Progress.failed.inj h).2.symm
  · next op g hfetch =>
    have hslots : g.slots = f.slots := by rw [fetchOpcode_ok hfetch]; rfl
    unfold carryOut at h
    split at h
    case h_8 =>
      unfold call at h
      split at h
      · exact .inl (Progress.failed.inj h).2.symm
      · next count g' hcount =>
        rw [(Frame.fetch_ok hcount).2] at h
        split at h
        · exact .inl (Progress.failed.inj h).2.symm
        · refine (failsBy_of_invoke h).imp id fun ⟨native, arguments, message, hmem, hrest⟩ => ?_
          exact ⟨native, arguments, message, fun v hv => hslots ▸ hmem v hv, hrest⟩
    case h_9 =>
      unfold returnFrom at h
      split at h
      · exact .inl (Progress.failed.inj h).2.symm
      · dsimp only at h
        split at h <;> cases h
    all_goals exact .inl (eq_of_conclude_failed h)

end Failures

end ScriptEngine
