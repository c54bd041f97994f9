import ScriptEngine.Proofs.Machine.Library
import ScriptEngine.Proofs.Machine.Reading
set_option autoImplicit false

/-!
# Machine: what one step can do

A frame that runs compiled code is always at an instruction that it has all the
operands for.  `Turn` lists all that the next step can then do: it stays in the
frame, gives up a captured slot, makes a closure, enters or leaves a call, ends
the program, or fails in a way that is the program's own doing
(`turn_of_step`).  What a program can get to is derived from this list and never
from the instructions themselves.
-/

namespace ScriptEngine

open Machine

variable {World : Type}

/-! ## Faults -/

/-- A fault is the program's own doing, and an error of a native is one that the
host gave. -/
structure Fault.IsOwn (host : Host World) (fault : Fault) : Prop where
  external : fault.isInternal = false
  native : ∀ message, fault = .native message →
    ∃ n arguments store world, (host.call n arguments store world).result = .error message

/-! ## Layouts -/

/-- The captured variables of one layout are those of the other one as well. -/
def Layout.Keeps (Γ Δ : Layout) : Prop :=
  ∀ i, fromOldest? Γ i = some (.variable true) → fromOldest? Δ i = some (.variable true)

namespace Layout

theorem Keeps.refl (Γ : Layout) : Γ.Keeps Γ := fun _ h => h

theorem Keeps.trans {Γ Δ Θ : Layout} (h : Γ.Keeps Δ) (k : Δ.Keeps Θ) : Γ.Keeps Θ :=
  fun i hi => k i (h i hi)

theorem Widens.keeps {Γ Δ : Layout} (h : Γ.Widens Δ) : Γ.Keeps Δ := fun _ hi => h.variable hi

theorem keeps_cons (κ : SlotKind) (Γ : Layout) : Γ.Keeps (κ :: Γ) := fun i hi => by
  rw [fromOldest_cons_of_lt (lt_of_fromOldest hi), hi]

theorem keeps_of_cons {κ : SlotKind} (Γ : Layout) (hκ : κ ≠ .variable true) :
    Keeps (κ :: Γ) Γ := fun i hi => by
  unfold fromOldest? at hi
  split at hi
  · exact absurd (Option.some.inj hi) hκ
  · exact hi

theorem keeps_of_temporary (Γ : Layout) : Keeps (.temporary :: Γ) Γ :=
  keeps_of_cons Γ (fun h => nomatch h)

/-- Temporary values are not captured. -/
theorem keeps_of_replicate (n : Nat) (Γ : Layout) :
    Keeps (List.replicate n .temporary ++ Γ) Γ := by
  induction n with
  | zero => exact Keeps.refl Γ
  | succ n ih => exact (keeps_of_temporary _).trans ih

end Layout

/-! ## Values that an instruction takes -/

/-- How many values the next instruction takes off the stack. -/
def Frame.taken (f : Frame) : Nat :=
  match f.nextOpcode? with
  | none => 0
  | some op =>
      if op.isBinary then 2
      else if op.isUnary then 1
      else
        match op with
        | .pop | .closeUpvalue | .defineGlobal => 1
        | .call => (f.chunk.code[f.ip + 1]?.getD 0).toNat + 1
        | .return => f.slots.size
        | _ => 0

/-- How many slots the next instruction leaves on the stack. -/
def Frame.spared (f : Frame) : Nat := f.slots.size - f.taken

/-- The next instruction takes no captured variable off the stack. -/
def Layout.SparedBy (Γ : Layout) (f : Frame) : Prop :=
  ∀ i, fromOldest? Γ i = some (.variable true) → i < f.spared

/-! ## Turns -/

/-- The captures of an instruction that makes a closure are local ones that will
be variables, or the cells of the function that runs. -/
def Capture.Ready (f : Frame) (Θ : Layout) (c : Capture) : Prop :=
  if c.isLocal then c.index ≤ f.slots.size ∧ fromOldest? Θ c.index = some (.variable true)
  else c.index < f.cells.size

/-- All that a step can lead to from a frame that runs with a layout. -/
inductive Turn (L : Library) (host : Host World) (m : Machine World) (f : Frame) (Γ : Layout) :
    Progress World → Prop where
  | inside {g : Frame} {m' : Machine World} {Θ : Layout} (runs : g.Runs L Θ)
      (spared : Γ.SparedBy f) (keeps : Γ.Keeps Θ) (sound : m'.IsSound L host)
      (callers : m'.callers = m.callers) (openCells : m'.openCells = m.openCells)
      (size : host.KeepsCells → m.store.cells.size ≤ m'.store.cells.size) :
      Turn L host m f Γ (.running g m')
  | retire {ip : Nat} {Θ : Layout} {b : Bool} (runs : (f.goTo ip f.slots.pop).Runs L Θ)
      (spared : f.spared = f.slots.pop.size)
      (keeps : ∀ Δ : Layout, Γ = .variable b :: Δ → Δ.Keeps Θ) (top : ∃ Δ, Γ = .variable b :: Δ)
      (sound : m.IsSound L host) :
      Turn L host m f Γ (.running (f.goTo ip f.slots.pop)
        { m with openCells := m.openCells.erase ⟨m.depth, f.slots.pop.size⟩ })
  | closure {ip : Nat} {Θ : Layout} {g : Function Value} {cs : List Capture}
      {taken : Taken} {after : Machine World} {closure : Value}
      (closure_eq : closure = .closure ⟨after.store.nextId, g, taken.cells⟩)
      (take : takeAll f cs {} m = (taken, after)) (ready : ∀ c ∈ cs, c.Ready f Θ)
      (runs : (f.goTo ip (f.slots.push closure)).Runs L Θ) (spared : Γ.SparedBy f)
      (keeps : Γ.Keeps Θ)
      (sound : { after with
        store := fill after.store.freshId.2 taken.own closure : Machine World }.IsSound L host) :
      Turn L host m f Γ (.running (f.goTo ip (f.slots.push closure))
        { after with store := fill after.store.freshId.2 taken.own closure })
  | enter {g : Frame} {ip base : Nat} {Θ : Layout} (runs : g.MayRun L)
      (waits : (f.goTo ip (f.slots.take base)).Waits L Θ) (keeps : Γ.Keeps Θ)
      (spared : Γ.SparedBy f)
      (below : ∀ i, fromOldest? Γ i = some (.variable true) → i < base)
      (sound : m.IsSound L host) :
      Turn L host m f Γ (.running g
        { m with callers := f.goTo ip (f.slots.take base) :: m.callers })
  | «return» {caller : Frame} {callers : List Frame} {v : Value} (sound : m.IsSound L host)
      (spared : f.spared = 0) (hcallers : m.callers = caller :: callers) (value : v.IsSound L) :
      Turn L host m f Γ (.running (caller.push v) { m.closeFrame with callers })
  | finish {v : Value} (sound : m.IsSound L host) (hcallers : m.callers = []) :
      Turn L host m f Γ (.finished v m.closeFrame)
  | fail {failure : Failure} {m' : Machine World}
      (own : f.cells.size = f.function.captureCount → failure.fault.IsOwn host)
      (sound : m'.IsSound L host) :
      Turn L host m f Γ (.failed failure m')

/-! ## Frames that go on -/

section Frames

variable {L : Library} {f : Frame} {Γ Δ Θ : Layout}

theorem Frame.At.goTo (h : f.At L Γ) {ip : Nat} {slots : Array Value}
    (hlayout : (L.typing f.function h.has).layouts ip = some Θ)
    (hvalues : ∀ v ∈ slots, v.IsSound L) : (f.goTo ip slots).At L Θ :=
  ⟨h.has, hlayout, h.allowed, hvalues⟩

theorem values_push {slots : Array Value} (h : ∀ v ∈ slots, v.IsSound L) {v : Value}
    (hv : v.IsSound L) : ∀ w ∈ slots.push v, w.IsSound L := by
  intro w hw
  rcases Array.mem_push.mp hw with hold | rfl
  · exact h w hold
  · exact hv

theorem values_of_push {slots : Array Value} {v : Value}
    (h : ∀ w ∈ slots.push v, w.IsSound L) : (∀ w ∈ slots, w.IsSound L) ∧ v.IsSound L :=
  ⟨fun w hw => h w (Array.mem_push.mpr (.inl hw)), h v Array.mem_push_self⟩

theorem values_set {slots : Array Value} (h : ∀ v ∈ slots, v.IsSound L) (i : Nat) {v : Value}
    (hv : v.IsSound L) : ∀ w ∈ slots.setIfInBounds i v, w.IsSound L := by
  intro w hw
  rcases Array.mem_or_eq_of_mem_setIfInBounds hw with hold | rfl
  · exact h w hold
  · exact hv

theorem values_extract {slots : Array Value} (h : ∀ v ∈ slots, v.IsSound L) (i j : Nat) :
    ∀ w ∈ slots.extract i j, w.IsSound L := by
  intro w hw
  obtain ⟨k, hk, rfl⟩ := Array.mem_iff_getElem.mp hw
  rw [Array.getElem_extract]
  exact h _ (Array.getElem_mem _)

/-- A frame has a value on top if its layout does. -/
theorem Frame.Runs.exists_push {κ : SlotKind} (h : f.Runs L (κ :: Γ)) :
    ∃ (below : Array Value) (v : Value), f.slots = below.push v ∧ below.size = Γ.length ∧
      (∀ w ∈ below, w.IsSound L) ∧ v.IsSound L := by
  have hsize : f.slots.size = Γ.length + 1 := h.size
  have hne : f.slots.size ≠ 0 := by omega
  obtain ⟨below, v, hslots⟩ := Array.eq_push_of_size_ne_zero hne
  have hvalues := h.values
  rw [hslots] at hvalues hsize
  obtain ⟨hbelow, hv⟩ := values_of_push hvalues
  rw [Array.size_push] at hsize
  exact ⟨below, v, hslots, Nat.succ.inj hsize, hbelow, hv⟩

/-! ### Values taken -/

/-- A word can count the bytes of all instructions that compiled code consists of. -/
theorem Frame.Runs.roomAskedFor_lt (hf : f.Runs L Γ) : 2 * roomAskedFor f < UInt64.size := by
  obtain ⟨op, operands, after, hholds, heff, -⟩ :=
    (L.typing f.function hf.has).instruction hf.layout
  exact roomAskedFor_lt_of_effect hholds heff

theorem nextOpcode_eq {op : Opcode} {operands : List UInt8}
    (h : f.chunk.Holds f.ip (op.toByte :: operands)) : f.nextOpcode? = some op := by
  unfold Frame.nextOpcode?
  rw [code_op h]
  exact Opcode.ofByte_toByte op

theorem sparedBy_of_keeps (hkeeps : Γ.Keeps Δ) (h : Δ.length + f.taken ≤ f.slots.size) :
    Γ.SparedBy f := by
  intro i hi
  have hlt := lt_of_fromOldest (hkeeps i hi)
  unfold Frame.spared
  omega

/-- Only an instruction that gives up a captured variable, or the frame, takes one off
the stack. -/
theorem Effect.spared {pool : Array Value} {count next : Nat} {op : Opcode}
    {operands : List UInt8} {after : List (Nat × Layout)}
    (heff : Effect pool count next op operands Γ after)
    (h : f.chunk.Holds f.ip (op.toByte :: operands)) (hsize : f.slots.size = Γ.length)
    (hretire : op ≠ .closeUpvalue) (hreturn : op ≠ .return) : Γ.SparedBy f := by
  have hnext := nextOpcode_eq h
  have htaken : ∀ n, f.taken = n → ∀ Δ, Γ.Keeps Δ → Δ.length + n ≤ Γ.length →
      Γ.SparedBy f := by
    intro n hn Δ hkeeps hle
    exact sparedBy_of_keeps hkeeps (by omega)
  unfold Frame.taken at htaken
  rw [hnext] at htaken
  cases heff with
  | @binary op Δ hop =>
    refine htaken 2 (if_pos hop) Δ (Layout.keeps_of_replicate 2 Δ) (Nat.le_refl _)
  | @unary op Δ hop =>
    refine htaken 1 ?_ Δ (Layout.keeps_of_temporary Δ) (Nat.le_refl _)
    cases op <;> first | rfl | cases hop
  | @pop κ Δ hκ => exact htaken 1 rfl Δ (Layout.keeps_of_cons Δ hκ) (Nat.le_refl _)
  | @defineGlobal k name Δ hk =>
    exact htaken 1 rfl Δ (Layout.keeps_of_temporary Δ) (Nat.le_refl _)
  | @call n Δ =>
    have hn : (f.chunk.code[f.ip + 1]?.getD 0).toNat + 1 = n.toNat + 1 := by
      rw [code_operand h]
      rfl
    refine htaken _ hn Δ (Layout.keeps_of_replicate _ Δ) (Nat.le_of_eq ?_)
    rw [List.length_append, List.length_replicate, Nat.add_comm]
  | literal hop =>
    refine htaken 0 ?_ Γ (.refl Γ) (Nat.le_refl _)
    cases op <;> first | rfl | cases hop
  | closeUpvalue => exact absurd rfl hretire
  | «return» => exact absurd rfl hreturn
  | _ => exact htaken 0 rfl _ (.refl _) (Nat.le_refl _)

variable {host : Host World} {m m' : Machine World}

/-! ### Within the frame -/

/-- The step goes on in the frame. -/
theorem turn_inside (hf : f.Runs L Γ) (hspared : Γ.SparedBy f) {ip : Nat} {slots : Array Value}
    (hadmits : (L.typing f.function hf.has).layouts.Admits (ip, Δ))
    (hsize : slots.size = Δ.length) (hvalues : ∀ v ∈ slots, v.IsSound L) (hkeeps : Γ.Keeps Δ)
    (hm : m'.IsSound L host) (hcallers : m'.callers = m.callers)
    (hopen : m'.openCells = m.openCells)
    (hcells : host.KeepsCells → m.store.cells.size ≤ m'.store.cells.size) :
    Turn L host m f Γ (.running (f.goTo ip slots) m') := by
  obtain ⟨Θ, hΘ, hw⟩ := hadmits
  exact .inside ⟨hf.goTo hΘ hvalues, hsize.trans hw.length_eq⟩ hspared (hkeeps.trans hw.keeps) hm
    hcallers hopen hcells

/-- The step only pushes a value. -/
theorem turn_push (hf : f.Runs L Γ) (hspared : Γ.SparedBy f) (hm : m.IsSound L host) {ip : Nat}
    {v : Value}
    (hadmits : (L.typing f.function hf.has).layouts.Admits (ip, .temporary :: Γ))
    (hv : v.IsSound L) : Turn L host m f Γ (.running (f.goTo ip (f.slots.push v)) m) := by
  refine turn_inside hf hspared hadmits ?_ (values_push hf.values hv) (Layout.keeps_cons _ _) hm
    rfl rfl
    fun _ => Nat.le_refl _
  rw [Array.size_push, hf.size]
  rfl

/-- The step leaves the stack as it is. -/
theorem turn_stay (hf : f.Runs L Γ) (hspared : Γ.SparedBy f) (hm : m'.IsSound L host) {ip : Nat}
    (hadmits : (L.typing f.function hf.has).layouts.Admits (ip, Γ))
    (hcallers : m'.callers = m.callers) (hopen : m'.openCells = m.openCells)
    (hcells : host.KeepsCells → m.store.cells.size ≤ m'.store.cells.size) :
    Turn L host m f Γ (.running (f.goTo ip f.slots) m') :=
  turn_inside hf hspared hadmits hf.size hf.values (Layout.Keeps.refl Γ) hm hcallers hopen hcells

/-- The outcome of an operator is plain, and it fails only on values that it is
not for. -/
theorem binary_plain {op : Opcode} {x y v : Value} (h : op.binary x y = .ok v) :
    v.IsSound L := by
  unfold Opcode.binary at h
  split at h
  case h_7 =>
    split at h
    · next hsum =>
      cases h
      unfold sum? at hsum
      split at hsum <;> cases hsum <;> exact .of_code rfl
    · cases h
  case h_8 => cases h
  all_goals
    cases h
    exact .of_code rfl

theorem binary_own {op : Opcode} {x y : Value} {fault : Fault}
    (h : op.binary x y = .error fault) : fault.IsOwn host := by
  unfold Opcode.binary at h
  split at h
  case h_7 =>
    split at h <;> cases h
    exact ⟨rfl, fun _ h => nomatch h⟩
  case h_8 =>
    cases h
    exact ⟨rfl, fun _ h => nomatch h⟩
  all_goals cases h

theorem unary_plain {op : Opcode} {x v : Value} (h : op.unary x = .ok v) : v.IsSound L := by
  unfold Opcode.unary at h
  split at h <;> split at h <;> cases h <;> exact .of_code rfl

theorem unary_own {op : Opcode} {x : Value} {fault : Fault}
    (h : op.unary x = .error fault) : fault.IsOwn host := by
  unfold Opcode.unary at h
  split at h <;> split at h <;> cases h <;> exact ⟨rfl, fun _ h => nomatch h⟩

/-- The step takes the value on top. -/
theorem turn_drop {κ : SlotKind} (hf : f.Runs L (κ :: Γ)) (hκ : κ ≠ .variable true)
    (hspared : Layout.SparedBy (κ :: Γ) f) (hm : m'.IsSound L host) {ip : Nat}
    (hadmits : (L.typing f.function hf.has).layouts.Admits (ip, Γ))
    (hcallers : m'.callers = m.callers) (hopen : m'.openCells = m.openCells)
    (hcells : host.KeepsCells → m.store.cells.size ≤ m'.store.cells.size) :
    Turn L host m f (κ :: Γ) (.running (f.goTo ip f.slots.pop) m') := by
  obtain ⟨below, v, hslots, hsize, hbelow, -⟩ := hf.exists_push
  rw [hslots, Array.pop_push]
  exact turn_inside hf hspared hadmits hsize hbelow (Layout.keeps_of_cons Γ hκ) hm hcallers hopen
    hcells

/-- The step puts the outcome of an operator in the place of `n` values. -/
theorem turn_operator {n : Nat} (hf : f.Runs L (List.replicate n .temporary ++ Γ))
    (hspared : Layout.SparedBy (List.replicate n .temporary ++ Γ) f) (hm : m.IsSound L host)
    {below : Array Value} (hsize : below.size = Γ.length)
    (hbelow : ∀ w ∈ below, w.IsSound L)
    (hadmits : (L.typing f.function hf.has).layouts.Admits (f.ip + 1, .temporary :: Γ))
    {outcome : Except Fault Value} (hok : ∀ v, outcome = .ok v → v.IsSound L)
    (herror : ∀ fault, outcome = .error fault → fault.IsOwn host) :
    Turn L host m f (List.replicate n .temporary ++ Γ)
      (m.afterOperator f below outcome) := by
  unfold afterOperator
  split
  · next v =>
    refine turn_inside hf hspared hadmits ?_ (values_push hbelow (hok v rfl)) ?_ hm rfl rfl
      fun _ => Nat.le_refl _
    · rw [Array.size_push, hsize]
      rfl
    · exact (Layout.keeps_of_replicate n Γ).trans (Layout.keeps_cons _ _)
  · next fault => exact .fail (fun _ => herror fault rfl) hm

/-! ### Globals and cells -/

theorem Machine.IsSound.define (hm : m.IsSound L host) (name : String) {v : Value}
    (hv : v.IsSound L) :
    ({ m with globals := m.globals.define name v } : Machine World).IsSound L host where
  globals other w hw := by
    rcases Globals.eq_or_get_of_get_define hw with rfl | hw
    · exact hv
    · exact hm.globals other w hw
  cells := hm.cells
  callers := hm.callers
  natives := hm.natives

theorem Machine.IsSound.assign (hm : m.IsSound L host) {name : String} {v : Value}
    (hv : v.IsSound L) {globals : Globals} (h : m.globals.assign? name v = some globals) :
    ({ m with globals } : Machine World).IsSound L host := by
  unfold Globals.assign? at h
  split at h
  · cases h
    exact hm.define name hv
  · cases h

theorem Machine.IsSound.withStore (hm : m.IsSound L host) {store : Store}
    (hcells : ∀ v ∈ store.cells, v.IsSound L) :
    ({ m with store } : Machine World).IsSound L host :=
  ⟨hm.globals, hcells, hm.callers, hm.natives⟩

theorem Machine.IsSound.withOpenCells (hm : m.IsSound L host) (openCells : OpenCells) :
    ({ m with openCells } : Machine World).IsSound L host :=
  ⟨hm.globals, hm.cells, hm.callers, hm.natives⟩

theorem Machine.IsSound.closeFrame (hm : m.IsSound L host) : m.closeFrame.IsSound L host := by
  unfold Machine.closeFrame
  split
  · exact hm
  · exact hm.withOpenCells _

/-! ### Closures -/

theorem size_write (store : Store) (c : Cell) (v : Value) :
    (store.write c v).cells.size = store.cells.size := Array.size_setIfInBounds

theorem isSound_takeOne (hm : m.IsSound L host) (hvalues : ∀ v ∈ f.slots, v.IsSound L)
    (c : Capture) (taken : Taken) : (takeOne f c taken m).2.IsSound L host := by
  unfold takeOne
  split
  · have hv : (f.slots[c.index]?.getD .nil).IsSound L := by
      cases hslot : f.slots[c.index]? with
      | none => exact .of_code rfl
      | some v => exact hvalues v (Array.mem_of_getElem? hslot)
    unfold cellFor
    dsimp only
    split
    · exact hm
    · exact (hm.withStore (Store.isSound_alloc hm.cells hv)).withOpenCells _
  · exact hm

theorem isSound_takeAll (hm : m.IsSound L host) (hvalues : ∀ v ∈ f.slots, v.IsSound L)
    (cs : List Capture) (taken : Taken) : (takeAll f cs taken m).2.IsSound L host := by
  induction cs generalizing m taken with
  | nil => exact hm
  | cons c cs ih => exact ih (isSound_takeOne hm hvalues c taken) _

/-- What an instruction captures is there, as far as the frame has the cells for it. -/
theorem Capture.Allowed.offers (hf : f.Runs L Γ) {κ : SlotKind} {c : Capture}
    (h : c.Allowed f.function.captureCount (κ :: Γ))
    (hcells : c.isLocal = false → c.index < f.cells.size) : Offers f c := by
  unfold Capture.Allowed at h
  unfold Offers
  split
  · next hlocal =>
    rw [if_pos hlocal] at h
    have hlt := lt_of_fromOldest h
    rw [List.length_cons, ← hf.size] at hlt
    exact Nat.le_of_lt_succ hlt
  · next hlocal => exact hcells (Bool.not_eq_true _ ▸ hlocal)

/-- In a frame with all cells of its function all captures are on offer. -/
theorem Capture.Allowed.offers_of_size (hf : f.Runs L Γ)
    (hsize : f.cells.size = f.function.captureCount) {κ : SlotKind} {c : Capture}
    (h : c.Allowed f.function.captureCount (κ :: Γ)) : Offers f c := by
  refine h.offers hf fun hlocal => ?_
  unfold Capture.Allowed at h
  rwa [if_neg (by rw [hlocal]; exact Bool.false_ne_true), ← hsize] at h

/-- Captures that are on offer are those of variables. -/
theorem Capture.Allowed.ready {κ : SlotKind} {c : Capture}
    (h : c.Allowed f.function.captureCount (κ :: Γ)) (hoffers : Offers f c)
    (hw : Layout.Widens (κ :: Γ) Θ) : c.Ready f Θ := by
  unfold Capture.Allowed at h
  unfold Capture.Ready
  unfold Offers at hoffers
  split
  · next hlocal =>
    rw [if_pos hlocal] at h hoffers
    exact ⟨hoffers, hw.variable h⟩
  · next hlocal => rwa [if_neg hlocal] at hoffers

/-- Only a frame without the cells of its function finds no cell to read or write. -/
theorem turn_uncaptured (hm : m.IsSound L host) {op : Opcode} {k : UInt8}
    (hop : op = .getUpvalue ∨ op = .setUpvalue) (h : f.chunk.Holds f.ip [op.toByte, k])
    (hk : k.toNat < f.function.captureCount) (hnone : f.cells[k.toNat]? = none) :
    Turn L host m f Γ (m.step host f) := by
  obtain ⟨failure, hfailed⟩ : ∃ failure, m.step host f = .failed failure m :=
    exists_step_upvalue_failed hop h hnone
  rw [hfailed]
  refine .fail (fun hsize => ?_) hm
  have hle := Array.getElem?_eq_none_iff.mp hnone
  omega

theorem isSound_fill {store : Store} (h : ∀ v ∈ store.cells, v.IsSound L)
    (own : Option Cell) {v : Value} (hv : v.IsSound L) :
    ∀ w ∈ (fill store own v).cells, w.IsSound L := by
  cases own with
  | none => exact h
  | some c => exact Store.isSound_write h c hv

theorem turn_closure (hf : f.Runs L Γ) (hspared : Γ.SparedBy f) (hm : m.IsSound L host) {k : UInt8}
    {pairs : List UInt8}
    {g : Function Value} {κ : SlotKind}
    (h : f.chunk.Holds f.ip (Opcode.closure.toByte :: k :: pairs))
    (hk : f.chunk.constants[k.toNat]? = some (.function g))
    (hlen : pairs.length = 2 * g.captureCount)
    (hcount : f.chunk.operandBytes f.ip .closure = .ok (k :: pairs).length)
    (hallowed : ∀ c ∈ Instruction.capturesOf pairs,
      c.Allowed f.function.captureCount (κ :: Γ))
    (hadmits : (L.typing f.function hf.has).layouts.Admits
      (f.ip + 2 + pairs.length, κ :: Γ)) : Turn L host m f Γ (m.step host f) := by
  by_cases hall : ∀ c ∈ Instruction.capturesOf pairs, Offers f c
  · obtain ⟨Θ, hΘ, hw⟩ := hadmits
    have hready : ∀ c ∈ Instruction.capturesOf pairs, c.Ready f Θ :=
      fun c hc => (hallowed c hc).ready (hall c hc) hw
    have hsound := isSound_takeAll hm hf.values (Instruction.capturesOf pairs) {}
    have hsize := size_takeAll f (Instruction.capturesOf pairs) {} m
    cases htake : takeAll f (Instruction.capturesOf pairs) {} m with
    | mk taken after =>
    rw [htake] at hsound hsize
    rw [step_closure h hk hlen hall htake]
    have hcells : taken.cells.size = g.captureCount := by
      rw [length_capturesOf hlen] at hsize
      exact hsize.trans (Nat.zero_add _)
    have hclosure : (Value.closure ⟨after.store.nextId, g, taken.cells⟩).IsSound L := by
      refine .of_closure ?_
      show L.Allows g taken.cells.size
      rw [hcells]
      exact L.allows g (L.closed _ hf.has g (Array.mem_of_getElem? hk))
    refine .closure rfl htake hready ⟨hf.goTo hΘ (values_push hf.values hclosure), ?_⟩ hspared
      ((Layout.keeps_cons κ Γ).trans hw.keeps) ?_
    · refine Eq.trans ?_ hw.length_eq
      show (f.slots.push _).size = _
      rw [Array.size_push, hf.size, List.length_cons]
    · have hafter : ∀ v ∈ after.store.freshId.2.cells, v.IsSound L := hsound.cells
      exact hsound.withStore (isSound_fill hafter taken.own hclosure)
  · -- only a frame without the cells of its function has not all that is captured
    push Not at hall
    obtain ⟨c, hc, hnot⟩ := hall
    have hlines := (L.typing f.function hf.has).size_lines
    obtain ⟨line, hdecode⟩ := Chunk.decode_of_holds (Nat.le_of_eq hlines.symm) h hcount
    obtain ⟨failure, k', hfailed⟩ := hasFailed_of_not_offers hdecode (Nat.le_of_eq hlines.symm)
      hf.roomAskedFor_lt rfl hc hnot
    have hconclude : m.conclude (m.closeOver (f.goTo (f.ip + 1) f.slots)) = .failed failure k' :=
      (step_eq (code_op h)).symm.trans hfailed
    rw [hfailed, eq_of_conclude_failed hconclude]
    exact .fail (fun hsize => absurd ((hallowed c hc).offers_of_size hf hsize) hnot) hm

/-! ### Calls -/

/-- What a native replies is as sound as its arguments. -/
theorem Machine.IsSound.reply (hm : m.IsSound L host) (native : Native)
    {arguments : List Value} (harguments : ∀ v ∈ arguments, v.IsSound L) :
    ({ m with
      store := (host.call native arguments m.store m.world).store
      world := (host.call native arguments m.store m.world).world } : Machine World).IsSound L
        host ∧
      ∀ v, (host.call native arguments m.store m.world).result = .ok v → v.IsSound L :=
  have hreply := hm.natives.reply (n := native) harguments hm.cells
  ⟨⟨hm.globals, hreply.cells, hm.callers, hm.natives.next harguments hm.cells⟩, hreply.result⟩

/-- A call either enters a function, or has a native reply, or is refused. -/
theorem turn_call {n : UInt8}
    (hf : f.Runs L (List.replicate (n.toNat + 1) .temporary ++ Γ))
    (hspared : Layout.SparedBy (List.replicate (n.toNat + 1) .temporary ++ Γ) f)
    (hm : m.IsSound L host) (h : f.chunk.Holds f.ip [Opcode.call.toByte, n])
    (hadmits : (L.typing f.function hf.has).layouts.Admits (f.ip + 2, .temporary :: Γ)) :
    Turn L host m f (List.replicate (n.toNat + 1) .temporary ++ Γ) (m.step host f) := by
  have hsize : f.slots.size = n.toNat + 1 + Γ.length := by
    rw [hf.size, List.length_append, List.length_replicate]
  have hbase : f.slots.size - (n.toNat + 1) = Γ.length := by omega
  have hlt : Γ.length < f.slots.size := by omega
  obtain ⟨callee, hcallee⟩ : ∃ v, f.slots[Γ.length]? = some v :=
    ⟨f.slots[Γ.length], Array.getElem?_eq_getElem hlt⟩
  have hvalue : callee.IsSound L := hf.values _ (Array.mem_of_getElem? hcallee)
  have htake : f.slots.take Γ.length = f.slots.extract 0 Γ.length := rfl
  have hkeep : ∀ w ∈ f.slots.take Γ.length, w.IsSound L := by
    rw [htake]
    exact values_extract hf.values 0 _
  have hsizeTake : (f.slots.take Γ.length).size = Γ.length := by
    rw [htake, Array.size_extract]
    omega
  have hkeeps := Layout.keeps_of_replicate (n.toNat + 1) Γ
  have hcount : argumentCount (f.goTo (f.ip + 2) f.slots) Γ.length = n.toNat := by
    show f.slots.size - (Γ.length + 1) = n.toNat
    omega
  -- a function is entered with the callee and the arguments in its slots
  have henter : ∀ (g : Function Value) (cells : Array Cell), L.Allows g cells.size →
      Turn L host m f (List.replicate (n.toNat + 1) .temporary ++ Γ)
        (m.enter (f.goTo (f.ip + 2) f.slots) Γ.length g cells) := by
    intro g cells hallowed
    unfold enter
    rw [hcount]
    split
    · next harity =>
      obtain ⟨Θ, hΘ, hw⟩ := hadmits
      refine .enter (Θ := Θ) ⟨hallowed, fun hg => ?_⟩ ⟨hf.goTo hΘ hkeep, ?_⟩ ?_ hspared ?_ hm
      · obtain ⟨Δ, hΔ, hlen⟩ := (L.typing g hg).start
        refine ⟨Δ, ⟨hg, hΔ, hallowed, values_extract hf.values _ _⟩, ?_⟩
        show (f.slots.extract Γ.length f.slots.size).size = Δ.length
        rw [Array.size_extract, hlen, harity]
        omega
      · show (f.slots.take Γ.length).size + 1 = Θ.length
        rw [hsizeTake, ← hw.length_eq]
        rfl
      · exact hkeeps.trans ((Layout.keeps_cons _ _).trans hw.keeps)
      · exact fun i hi => lt_of_fromOldest (hkeeps i hi)
    · exact .fail (fun _ => ⟨rfl, fun _ h => nomatch h⟩) hm
  rw [step_call h (by omega), hbase, hcallee]
  show Turn L host m f _ (m.invoke host (f.goTo (f.ip + 2) f.slots) Γ.length callee)
  unfold invoke
  cases callee with
  | closure c => exact henter c.function c.cells (hvalue _ _ rfl)
  | function g => exact henter g #[] (hvalue _ _ rfl)
  | native native =>
    dsimp only
    split
    · have harguments : ∀ v ∈ (f.slots.extract (Γ.length + 1) f.slots.size).toList,
          v.IsSound L := fun v hv => values_extract hf.values _ _ v (Array.mem_toList_iff.mp hv)
      obtain ⟨hsound, hresult⟩ := hm.reply native harguments
      unfold invokeNative
      dsimp only
      split
      · next v hv =>
        have hpush : ((f.slots.take Γ.length).push v).size = Γ.length + 1 := by
          rw [Array.size_push, hsizeTake]
        exact turn_inside hf hspared hadmits hpush (values_push hkeep (hresult v hv))
          (hkeeps.trans (Layout.keeps_cons _ _)) hsound rfl rfl fun hcells => hcells _ _ _ _
      · next message hmessage =>
        refine .fail (fun _ => ⟨rfl, fun text h => ⟨_, _, _, _, hmessage.trans ?_⟩⟩) hsound
        exact congrArg Except.error (Fault.native.inj h)
    · exact .fail (fun _ => ⟨rfl, fun _ h => nomatch h⟩) hm
  | _ => exact .fail (fun _ => ⟨rfl, fun _ h => nomatch h⟩) hm

/-! ### Steps -/

/-- The next step of a frame that runs compiled code is one of the turns. -/
theorem turn_of_step (hf : f.Runs L Γ) (hm : m.IsSound L host) :
    Turn L host m f Γ (m.step host f) := by
  obtain ⟨op, operands, after, hholds, heff, hafter⟩ :=
    (L.typing f.function hf.has).instruction hf.layout
  have hnext : ∀ {x : Nat × Layout}, after = [x] →
      (L.typing f.function hf.has).layouts.Admits x := fun h =>
    hafter _ (h ▸ List.mem_cons_self)
  have hspared := heff.spared hholds hf.size
  have hcount := Chunk.operandBytes_eq hholds heff
  cases heff with
  | literal hop =>
    rw [step_literal hop hholds]
    refine turn_push hf (hspared ?_ ?_) hm (hnext rfl) ?_
    · rintro rfl
      cases hop
    · rintro rfl
      cases hop
    · cases op <;> exact .of_code rfl
  | constant hk hv =>
    rw [step_constant hholds hk]
    exact turn_push hf (hspared nofun nofun) hm (hnext rfl) (.of_isLiteral hv)
  | pop hκ =>
    obtain ⟨below, v, hslots, -⟩ := hf.exists_push
    rw [step_pop hholds (by rw [hslots, Array.back?_push])]
    exact turn_drop hf hκ (hspared nofun nofun) hm (hnext rfl) rfl rfl fun _ => Nat.le_refl _
  | @closeUpvalue b Δ =>
    obtain ⟨below, v, hslots, hsize, hbelow, -⟩ := hf.exists_push
    rw [step_closeUpvalue hholds (by rw [hslots, Array.back?_push])]
    obtain ⟨Θ, hΘ, hw⟩ := hnext rfl
    have hpop : f.slots.pop = below := by rw [hslots, Array.pop_push]
    refine .retire ⟨hf.goTo hΘ (hpop ▸ hbelow), ?_⟩ ?_ (fun Δ' h => ?_) ⟨Δ, rfl⟩ hm
    · show f.slots.pop.size = Θ.length
      rw [hpop, hsize, hw.length_eq]
    · unfold Frame.spared Frame.taken
      rw [nextOpcode_eq hholds, Array.size_pop]
      rfl
    · cases h
      exact hw.keeps
  | @getLocal k b Δ hpos hk =>
    have hlt : k.toNat < f.slots.size := hf.size ▸ lt_of_fromOldest hk
    rw [step_getLocal hholds (Array.getElem?_eq_getElem hlt)]
    exact turn_push hf (hspared nofun nofun) hm (hnext rfl) (hf.values _ (Array.getElem_mem _))
  | @setLocal k b Δ hpos hk =>
    obtain ⟨below, v, hslots, hsize, -, hv⟩ := hf.exists_push
    have hlt : k.toNat < f.slots.size := by
      rw [hf.size]
      exact Nat.lt_succ_of_lt (lt_of_fromOldest hk)
    rw [step_setLocal hholds hlt (by rw [hslots, Array.back?_push])]
    refine turn_inside hf (hspared nofun nofun) (hnext rfl) ?_ (values_set hf.values _ hv)
      (Layout.Keeps.refl _) hm
      rfl rfl fun _ => Nat.le_refl _
    rw [Array.size_setIfInBounds, hf.size]
  | getGlobal hk =>
    rw [step_getGlobal hholds hk]
    split
    · next v hv => exact turn_push hf (hspared nofun nofun) hm (hnext rfl) (hm.globals _ v hv)
    · exact .fail (fun _ => ⟨rfl, fun _ h => nomatch h⟩) hm
  | @defineGlobal k name Δ hk =>
    obtain ⟨below, v, hslots, -, -, hv⟩ := hf.exists_push
    rw [step_defineGlobal hholds hk (by rw [hslots, Array.back?_push])]
    exact turn_drop hf (fun h => nomatch h) (hspared nofun nofun) (hm.define name hv) (hnext rfl)
      rfl rfl
      fun _ => Nat.le_refl _
  | setGlobal hk =>
    obtain ⟨below, v, hslots, -, -, hv⟩ := hf.exists_push
    rw [step_setGlobal hholds hk (by rw [hslots, Array.back?_push])]
    split
    · next globals hassign =>
      exact turn_stay hf (hspared nofun nofun) (hm.assign hv hassign) (hnext rfl) rfl rfl
        fun _ => Nat.le_refl _
    · exact .fail (fun _ => ⟨rfl, fun _ h => nomatch h⟩) hm
  | @getUpvalue k _ hk =>
    cases hcell : f.cells[k.toNat]? with
    | some cell =>
      rw [step_getUpvalue hholds hcell]
      exact turn_push hf (hspared nofun nofun) hm (hnext rfl) (Store.isSound_read hm.cells _)
    | none => exact turn_uncaptured hm (.inl rfl) hholds hk hcell
  | @setUpvalue k _ hk =>
    obtain ⟨below, v, hslots, -, -, hv⟩ := hf.exists_push
    cases hcell : f.cells[k.toNat]? with
    | some cell =>
      rw [step_setUpvalue hholds hcell (by rw [hslots, Array.back?_push])]
      exact turn_stay hf (hspared nofun nofun)
        (hm.withStore (Store.isSound_write hm.cells _ hv)) (hnext rfl) rfl rfl
        fun _ => Nat.le_of_eq (size_write ..).symm
    | none => exact turn_uncaptured hm (.inr rfl) hholds hk hcell
  | @binary op Δ hop =>
    have hf' : f.Runs L (List.replicate 2 .temporary ++ Δ) := hf
    obtain ⟨below', y, hslots, hsize, hbelow, -⟩ := hf.exists_push
    have hne : below'.size ≠ 0 := hsize ▸ Nat.succ_ne_zero _
    obtain ⟨below, x, rfl⟩ := Array.eq_push_of_size_ne_zero hne
    rw [step_binary hop hholds hslots]
    rw [Array.size_push] at hsize
    refine turn_operator hf' (hspared ?_ ?_) hm (Nat.succ.inj hsize) (values_of_push hbelow).1
      (hnext rfl) (fun v h => binary_plain h) (fun fault h => binary_own h)
    · rintro rfl
      cases hop
    · rintro rfl
      cases hop
  | @unary op Δ hop =>
    have hf' : f.Runs L (List.replicate 1 .temporary ++ Δ) := hf
    obtain ⟨below, x, hslots, hsize, hbelow, -⟩ := hf.exists_push
    rw [step_unary hop hholds hslots]
    refine turn_operator hf' (hspared ?_ ?_) hm hsize hbelow (hnext rfl)
      (fun v h => unary_plain h) (fun fault h => unary_own h)
    · rintro rfl
      cases hop
    · rintro rfl
      cases hop
  | jump =>
    rw [step_jump hholds]
    exact turn_stay hf (hspared nofun nofun) hm (hnext rfl) rfl rfl fun _ => Nat.le_refl _
  | @jumpIfFalse d Δ =>
    obtain ⟨below, v, hslots, -⟩ := hf.exists_push
    rw [step_jumpIfFalse hholds (by rw [hslots, Array.back?_push])]
    split
    · next b _ =>
      refine turn_stay hf (hspared nofun nofun) hm ?_ rfl rfl fun _ => Nat.le_refl _
      cases b
      · exact hafter _ (List.mem_cons_of_mem _ List.mem_cons_self)
      · exact hafter _ List.mem_cons_self
    · exact .fail (fun _ => ⟨rfl, fun _ h => nomatch h⟩) hm
  | loop hd =>
    rw [step_loop hholds hd]
    exact turn_stay hf (hspared nofun nofun) hm (hnext rfl) rfl rfl fun _ => Nat.le_refl _
  | call => exact turn_call hf (hspared nofun nofun) hm hholds (hnext rfl)
  | @closure k pairs g κ _ hk hsize _ hpairs =>
    refine turn_closure hf (hspared nofun nofun) hm hholds hk hsize hcount hpairs (hnext ?_)
    rw [List.length_cons]
    congr 2
    omega
  | «return» =>
    obtain ⟨below, v, hslots, -, -, hv⟩ := hf.exists_push
    rw [step_return hholds (by rw [hslots, Array.back?_push])]
    split
    · next caller callers hcallers =>
      refine .return hm ?_ hcallers hv
      unfold Frame.spared Frame.taken
      rw [nextOpcode_eq hholds]
      exact Nat.sub_self _
    · next hcallers => exact .finish hm hcallers

end Frames

end ScriptEngine
