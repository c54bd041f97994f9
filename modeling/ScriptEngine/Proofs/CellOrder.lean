import ScriptEngine.Proofs.Captures
import ScriptEngine.Proofs.Machine.Calls
import ScriptEngine.Proofs.Machine.Failing
set_option autoImplicit false

/-!
# Open cells stay in order

Bisection is silently wrong in a table that is out of order, so that the order of the open cells
has to hold for any code, in whatever order it captures slots and gives them up, and also in the
middle of an instruction: a closure puts one entry after the other into the table while it
bisects it, and an instruction that breaks off leaves the table as it is.

`Machine.IsOrderly` is the invariant.  All that instructions do to the table in place keeps it
(`Deed.KeepsOrder`), hence a step does (`isOrderly_stepInPlace`), and a run
(`isOrderly_of_unfinished`).  What bisection and truncation rely on follows from it
(`Machine.IsOrderly.findsCells`, `open_cells_in_order`).
-/

namespace ScriptEngine

open Machine

variable {World : Type}

/-- The open cells are in order and apart, and each is that of a frame that has not returned. -/
structure Machine.IsOrderly (m : Machine World) : Prop extends m.IsOrdered where
  live : ∀ e ∈ m.openCells, e.place.depth ≤ m.depth

/-! ## Changes to the table -/

section Changes

variable {host : Host World} {m k : Machine World} {f g : Frame}

theorem isOrderly_idle (hopen : m.openCells = #[]) : m.IsOrderly where
  sorted := hopen ▸ OpenCells.sorted_empty
  apart a ha := absurd (hopen ▸ ha) (Array.not_mem_empty a)
  stored e he := absurd (hopen ▸ he) (Array.not_mem_empty e)
  live e he := absurd (hopen ▸ he) (Array.not_mem_empty e)

/-- The table is the same; there may be more cells and more calls. -/
theorem Machine.IsOrderly.of_eq (h : m.IsOrderly) (hopen : k.openCells = m.openCells)
    (hdepth : m.depth ≤ k.depth) (hgrows : m.store.cells.size ≤ k.store.cells.size) :
    k.IsOrderly where
  sorted := hopen ▸ h.sorted
  apart := hopen ▸ h.apart
  stored e he := Nat.lt_of_lt_of_le (h.stored e (hopen ▸ he)) hgrows
  live e he := Nat.le_trans (h.live e (hopen ▸ he)) hdepth

/-- Entries have been removed. -/
theorem Machine.IsOrderly.of_subset (h : m.IsOrderly) (hsorted : k.openCells.Sorted)
    (hmem : ∀ e ∈ k.openCells, e ∈ m.openCells ∧ e.place.depth ≤ k.depth)
    (hstore : k.store = m.store) : k.IsOrderly where
  sorted := hsorted
  apart a ha b hb := h.apart a (hmem a ha).1 b (hmem b hb).1
  stored e he := hstore ▸ h.stored e (hmem e he).1
  live e he := (hmem e he).2

theorem Machine.IsOrderly.erase (h : m.IsOrderly) (p : SlotPlace) :
    ({ m with openCells := m.openCells.erase p } : Machine World).IsOrderly := by
  refine h.of_subset (h.sorted.erase p) (fun e he => ?_) rfl
  have hold := ((OpenCells.mem_erase h.sorted).mp he).1
  exact ⟨hold, h.live e hold⟩

/-- A cell that is opened is that of the running frame. -/
theorem Machine.IsOrderly.cellFor (h : m.IsOrderly) (slot : Nat) (v : Value) :
    (m.cellFor slot v).2.IsOrderly := by
  have hfetch := fetches_cellFor h.toIsOrdered slot v
  refine ⟨hfetch.ordered, fun e he => ?_⟩
  rw [depth_eq hfetch.callers]
  rcases hfetch.fresh e he with hold | ⟨rfl, -, -⟩
  · exact h.live e hold
  · exact Nat.le_refl _

/-- The closure is put into cells that are there already. -/
theorem Machine.IsOrderly.finishClosure (h : m.IsOrderly) (function : Function Value)
    (taken : Taken) : (Deed.finishClosure function taken m).2.IsOrderly := by
  refine h.of_eq rfl (Nat.le_refl _) (Nat.le_of_eq ?_)
  exact (size_fill m.store.freshId.2 taken.own _).symm

theorem callers_closeFrame (m : Machine World) : m.closeFrame.callers = m.callers := by
  unfold Machine.closeFrame
  split <;> rfl

theorem Machine.IsOrderly.closeFrame (h : m.IsOrderly) (callers : List Frame)
    (hdepth : m.depth ≤ callers.length + 1) :
    ({ m.closeFrame with callers } : Machine World).IsOrderly := by
  have hopen : m.closeFrame.openCells = m.openCells.below m.depth := openCells_closeFrame m
  refine h.of_subset (hopen ▸ h.sorted.below _) (fun e he => ?_) (store_closeFrame m)
  obtain ⟨hold, hlt⟩ := (OpenCells.mem_below h.sorted).mp (hopen ▸ he)
  exact ⟨hold, Nat.le_of_lt_succ (Nat.lt_of_lt_of_le hlt hdepth)⟩

end Changes

/-! ## Deeds -/

namespace Deed

variable {α β : Type} {m : Machine World}

/-- However the deed ends, the open cells are in order if they were before. -/
def KeepsOrder (d : Deed World α) : Prop := ∀ m, m.IsOrderly → (d m).2.IsOrderly

theorem KeepsOrder.bind {d : Deed World α} {g : α → Deed World β} (hd : d.KeepsOrder)
    (hg : ∀ a, (g a).KeepsOrder) : (d >>= g).KeepsOrder := by
  intro m hm
  have hfirst := hd m hm
  rw [bind_eq]
  split
  · next a k hak =>
    rw [hak] at hfirst
    exact hg a k hfirst
  · next failure k hak =>
    rw [hak] at hfirst
    exact hfirst

theorem keepsOrder_check (x : Attempt α) : (liftM x : Deed World α).KeepsOrder := by
  intro m hm
  cases x with
  | ok a => exact hm
  | error failure => exact hm

theorem keepsOrder_pure (a : α) : (pure a : Deed World α).KeepsOrder := fun _ hm => hm

theorem keepsOrder_get : (MonadState.get : Deed World (Machine World)).KeepsOrder :=
  fun _ hm => hm

theorem keepsOrder_modifyGet {change : Machine World → α × Machine World}
    (h : ∀ m, m.IsOrderly → (change m).2.IsOrderly) :
    (modifyGet change : Deed World α).KeepsOrder := fun m hm => h m hm

theorem keepsOrder_modify {change : Machine World → Machine World}
    (h : ∀ m, m.IsOrderly → (change m).IsOrderly) :
    (modify change : Deed World PUnit).KeepsOrder := fun m hm => h m hm

/-! ### Instructions -/

section Instructions

variable (f : Frame)

theorem keepsOrder_loadGlobal : (loadGlobal f : Deed World Frame).KeepsOrder :=
  (keepsOrder_check _).bind fun _ => keepsOrder_get.bind fun _ =>
    (keepsOrder_check _).bind fun _ => keepsOrder_pure _

theorem keepsOrder_introduceGlobal : (introduceGlobal f : Deed World Frame).KeepsOrder := by
  refine (keepsOrder_check _).bind fun _ => (keepsOrder_check _).bind fun _ => ?_
  refine KeepsOrder.bind (keepsOrder_modify ?_) fun _ => keepsOrder_pure _
  exact fun m hm => hm.of_eq rfl (Nat.le_refl _) (Nat.le_refl _)

theorem keepsOrder_storeGlobal : (storeGlobal f : Deed World Frame).KeepsOrder := by
  refine (keepsOrder_check _).bind fun _ => (keepsOrder_check _).bind fun _ => ?_
  refine keepsOrder_get.bind fun _ => (keepsOrder_check _).bind fun _ => ?_
  refine KeepsOrder.bind (keepsOrder_modify ?_) fun _ => keepsOrder_pure _
  exact fun m hm => hm.of_eq rfl (Nat.le_refl _) (Nat.le_refl _)

theorem keepsOrder_loadUpvalue : (loadUpvalue f : Deed World Frame).KeepsOrder :=
  (keepsOrder_check _).bind fun _ => (keepsOrder_check _).bind fun _ =>
    keepsOrder_get.bind fun _ => keepsOrder_pure _

theorem keepsOrder_storeUpvalue : (storeUpvalue f : Deed World Frame).KeepsOrder := by
  refine (keepsOrder_check _).bind fun _ => (keepsOrder_check _).bind fun _ => ?_
  refine (keepsOrder_check _).bind fun cell => ?_
  refine KeepsOrder.bind (keepsOrder_modify ?_) fun _ => keepsOrder_pure _
  exact fun m hm => hm.of_eq rfl (Nat.le_refl _) (Nat.le_of_eq (size_write ..).symm)

/-- The entry is gone also when there is no value to take. -/
theorem keepsOrder_retireUpvalue : (retireUpvalue f : Deed World Frame).KeepsOrder :=
  (keepsOrder_modify fun _ hm => hm.erase _).bind fun _ =>
    (keepsOrder_check _).bind fun _ => keepsOrder_pure _

theorem keepsOrder_takeCell (taken : Taken) :
    (takeCell f taken : Deed World (Taken × Frame)).KeepsOrder := by
  refine (keepsOrder_check _).bind fun isLocal => (keepsOrder_check _).bind fun index => ?_
  dsimp only
  split
  · split
    · exact (keepsOrder_modifyGet fun _ hm => hm.cellFor _ _).bind fun _ => keepsOrder_pure _
    · exact (keepsOrder_check _).bind fun _ =>
        (keepsOrder_modifyGet fun _ hm => hm.cellFor _ _).bind fun _ => keepsOrder_pure _
  · exact (keepsOrder_check _).bind fun _ => keepsOrder_pure _

theorem keepsOrder_takeCells (count : Nat) (taken : Taken) :
    (takeCells count f taken : Deed World (Taken × Frame)).KeepsOrder := by
  induction count generalizing f taken with
  | zero => exact keepsOrder_pure _
  | succ count ih => exact (keepsOrder_takeCell f taken).bind fun _ => ih _ _

theorem keepsOrder_closeOver : (closeOver f : Deed World Frame).KeepsOrder :=
  (keepsOrder_check _).bind fun _ => KeepsOrder.bind (keepsOrder_takeCells _ _ _) fun _ =>
    (keepsOrder_modifyGet fun _ hm => hm.finishClosure ..).bind fun _ => keepsOrder_pure _

end Instructions

end Deed

/-! ## Steps and runs -/

/-- The machine that a step leads to, however it ends. -/
def Progress.machine : Progress World → Machine World
  | running _ m | finished _ m | failed _ m => m

section Steps

variable {host : Host World} {m k : Machine World} {f g : Frame}

theorem Deed.KeepsOrder.progress {d : Deed World Frame} (hd : d.KeepsOrder)
    (hm : m.IsOrderly) : (d.progress m).machine.IsOrderly := by
  have hafter := hd m hm
  unfold Deed.progress
  split
  · next f k hfk =>
    rw [hfk] at hafter
    exact hafter
  · next failure k hfk =>
    rw [hfk] at hafter
    exact hafter

theorem isOrderly_enter (hm : m.IsOrderly) (f : Frame) (base : Nat) (p : Function Value)
    (cells : Array Cell) : (m.enter f base p cells).machine.IsOrderly := by
  unfold enter
  split
  · exact hm.of_eq rfl (Nat.le_succ _) (Nat.le_refl _)
  · exact hm

theorem isOrderly_invokeNative (hcells : host.KeepsCells) (hm : m.IsOrderly) (f : Frame)
    (base : Nat) (native : Native) : (m.invokeNative host f base native).machine.IsOrderly := by
  unfold invokeNative
  dsimp only
  split
  · exact hm.of_eq rfl (Nat.le_refl _) (hcells ..)
  · exact hm.of_eq rfl (Nat.le_refl _) (hcells ..)

theorem isOrderly_call (hcells : host.KeepsCells) (hm : m.IsOrderly) (f : Frame) :
    (m.call host f).machine.IsOrderly := by
  unfold call
  split
  · exact hm
  · dsimp only
    split
    · exact hm
    · unfold invoke
      split
      · exact isOrderly_enter hm ..
      · exact isOrderly_enter hm ..
      · dsimp only
        split
        · exact isOrderly_invokeNative hcells hm ..
        · exact hm
      · exact hm

/-- With the frame that returns, its entries go. -/
theorem isOrderly_returnFrom (hm : m.IsOrderly) (f : Frame) :
    (m.returnFrom f).machine.IsOrderly := by
  have hcallers : m.closeFrame.callers = m.callers := callers_closeFrame m
  unfold returnFrom
  split
  · exact hm
  · dsimp only
    split
    · next caller callers hwaiting =>
      refine hm.closeFrame callers (Nat.le_of_eq ?_)
      show m.callers.length = _
      rw [← hcallers, hwaiting]
      rfl
    · refine hm.closeFrame m.closeFrame.callers ?_
      rw [hcallers]
      exact Nat.le_succ _

theorem isOrderly_carryOutInPlace (hcells : host.KeepsCells) (hm : m.IsOrderly) (f : Frame)
    (op : Opcode) : (m.carryOutInPlace host f op).machine.IsOrderly := by
  cases op with
  | getGlobal => exact (Deed.keepsOrder_loadGlobal f).progress hm
  | defineGlobal => exact (Deed.keepsOrder_introduceGlobal f).progress hm
  | setGlobal => exact (Deed.keepsOrder_storeGlobal f).progress hm
  | getUpvalue => exact (Deed.keepsOrder_loadUpvalue f).progress hm
  | setUpvalue => exact (Deed.keepsOrder_storeUpvalue f).progress hm
  | closeUpvalue => exact (Deed.keepsOrder_retireUpvalue f).progress hm
  | closure => exact (Deed.keepsOrder_closeOver f).progress hm
  | call => exact isOrderly_call hcells hm f
  | «return» => exact isOrderly_returnFrom hm f
  | nil => exact (Deed.keepsOrder_check (runLocal .nil f)).progress hm
  | «true» => exact (Deed.keepsOrder_check (runLocal .true f)).progress hm
  | «false» => exact (Deed.keepsOrder_check (runLocal .false f)).progress hm
  | _ => exact (Deed.keepsOrder_check _).progress hm

/-- Whatever the code is, a step leaves the open cells in order, also if it breaks off. -/
theorem isOrderly_stepInPlace (hcells : host.KeepsCells) (hm : m.IsOrderly) (f : Frame) :
    (m.stepInPlace host f).machine.IsOrderly := by
  unfold stepInPlace
  split
  · exact hm
  · exact isOrderly_carryOutInPlace hcells hm ..

theorem isOrderly_of_step (hcells : host.KeepsCells) (hm : m.IsOrderly)
    (h : m.step host f = .running g k) : k.IsOrderly := by
  have hinPlace := isOrderly_stepInPlace hcells hm f
  rcases stepInPlace_cases host m f with hsame | ⟨failure, l, hfailed, -⟩
  · rw [hsame, h] at hinPlace
    exact hinPlace
  · cases h.symm.trans hfailed

theorem isOrderly_of_unfinished (hcells : host.KeepsCells) (hm : m.IsOrderly) {n : Nat}
    (h : ending host n m f = .unfinished g k) : k.IsOrderly := by
  induction n generalizing g k with
  | zero =>
    cases h
    exact hm
  | succ n ih =>
    obtain ⟨g₀, k₀, hbefore, hstep⟩ := ending_succ_eq_unfinished_iff.mp h
    exact isOrderly_of_step hcells (ih hbefore) hstep

end Steps

/-! ## What the order is good for -/

/-- The entries of the table go up, each is that of a frame that has not returned, and no two have
the same cell.  So a place is found just where its entry is, a slot that is captured already keeps
its cell, and the entries of a frame that returns are all that is cut off. -/
structure Machine.FindsCells (m : Machine World) : Prop where
  increasing : m.openCells.toList.Pairwise fun a b => a.place.depth < b.place.depth ∨
    a.place.depth = b.place.depth ∧ a.place.slot < b.place.slot
  live : ∀ e ∈ m.openCells, e.place.depth ≤ m.callers.length
  apart : (m.openCells.toList.map OpenCell.cell).Nodup
  found : ∀ p i, m.openCells.locate p = .ok i ↔ ∃ c, m.openCells[i]? = some ⟨p, c⟩
  missed : ∀ p, (∃ i, m.openCells.locate p = .error i) ↔ ∀ e ∈ m.openCells, e.place ≠ p
  captured : ∀ slot v c, ⟨⟨m.depth, slot⟩, c⟩ ∈ m.openCells → m.cellFor slot v = (c, m)
  closed : m.closeFrame.openCells = m.openCells.filter fun e => e.place.depth ≠ m.depth

section Finding

variable {o : OpenCells} {p : SlotPlace} {m : Machine World}

theorem OpenCells.Sorted.index_unique (h : o.Sorted) {i j : Nat} {a b : OpenCell}
    (ha : o[i]? = some a) (hb : o[j]? = some b) (hplace : a.place = b.place) : i = j := by
  rcases Nat.lt_trichotomy i j with hlt | heq | hlt
  · exact absurd hplace (h.before hlt ha hb).ne
  · exact heq
  · exact absurd hplace.symm (h.before hlt hb ha).ne

theorem OpenCells.locate_eq_ok_iff (h : o.Sorted) {i : Nat} :
    o.locate p = .ok i ↔ ∃ c, o[i]? = some ⟨p, c⟩ := by
  constructor
  · intro hlocate
    unfold locate at hlocate
    dsimp only at hlocate
    split at hlocate
    · next entry hentry =>
      split at hlocate
      · next hplace =>
        cases hlocate
        exact ⟨entry.cell, hplace ▸ hentry⟩
      · cases hlocate
    · cases hlocate
  · rintro ⟨c, hi⟩
    obtain ⟨hlocate, hat⟩ := locate_of_mem h (Array.mem_of_getElem? hi)
    rw [hlocate, h.index_unique hat hi rfl]

theorem OpenCells.locate_eq_error_iff (h : o.Sorted) :
    (∃ i, o.locate p = .error i) ↔ ∀ e ∈ o, e.place ≠ p := by
  constructor
  · rintro ⟨i, hi⟩ e he rfl
    cases hi.symm.trans (locate_of_mem h he).1
  · exact fun hnone => ⟨_, locate_of_not_mem hnone⟩

theorem OpenCells.Sorted.filter (h : o.Sorted) (keep : OpenCell → Bool) :
    OpenCells.Sorted (o.filter keep) := by
  unfold OpenCells.Sorted
  rw [Array.toList_filter]
  exact List.Pairwise.filter keep h

/-- The entries of outer frames are in front, so that cutting off is the same as leaving out. -/
theorem Machine.IsOrderly.below_depth (h : m.IsOrderly) :
    m.openCells.below m.depth = m.openCells.filter fun e => e.place.depth ≠ m.depth := by
  refine (h.sorted.below _).eq_of_mem_iff (h.sorted.filter _) fun e => ?_
  rw [OpenCells.mem_below h.sorted, Array.mem_filter, decide_eq_true_iff]
  refine and_congr_right fun he => ?_
  rw [Nat.lt_iff_le_and_ne, and_iff_right (h.live e he)]

theorem Machine.IsOrderly.findsCells (h : m.IsOrderly) : m.FindsCells where
  increasing := h.sorted
  live := h.live
  apart := by
    refine List.Nodup.map_on (fun a ha b hb hab => ?_) (h.sorted.imp fun hbefore heq =>
      hbefore.ne (congrArg OpenCell.place heq))
    exact h.apart a (Array.mem_toList_iff.mp ha) b (Array.mem_toList_iff.mp hb) hab
  found _ _ := OpenCells.locate_eq_ok_iff h.sorted
  missed _ := OpenCells.locate_eq_error_iff h.sorted
  captured slot v c hmem := by
    unfold Machine.cellFor
    dsimp only
    rw [(OpenCells.find_eq_some_iff h.sorted).mpr hmem]
  closed := (openCells_closeFrame m).trans h.below_depth

/-- A return cuts the table off where the entries of its frame begin. -/
theorem openCells_of_return {host : Host World} {f : Frame}
    (hop : f.nextOpcode? = some .return) (hok : ¬ (m.step host f).HasFailed) :
    (m.step host f).machine.openCells = m.closeFrame.openCells := by
  obtain ⟨op, hcode⟩ := exists_opcode hok
  obtain rfl : op = .return := Option.some.inj ((nextOpcode_eq (holds_op hcode)).symm.trans hop)
  have hstep : m.step host f = m.returnFrom (behindOpcode f) := step_eq hcode
  rw [hstep] at hok ⊢
  unfold returnFrom at hok ⊢
  split
  · next failure hpop =>
    rw [hpop] at hok
    exact absurd ⟨_, _, rfl⟩ hok
  · dsimp only
    split <;> rfl

end Finding

/-! ## Any run of any code -/

/-- At every moment of a run of any code, the table of open cells can be relied on
(`Machine.FindsCells`): before each step, after each of the captures of a closure, and when an
instruction breaks off halfway.  A return leaves of the table just the entries of other frames.
Natives may do anything but take cells out of the store. -/
theorem open_cells_in_order {host : Host World} (hcells : host.KeepsCells)
    {start : Machine World} (hopen : start.openCells = #[]) {first f : Frame}
    {m : Machine World} {n : Nat} (hreached : ending host n start first = .unfinished f m) :
    m.FindsCells ∧
    (∀ count g taken, (Deed.takeCells count g taken m).2.FindsCells) ∧
    (m.stepInPlace host f).machine.FindsCells ∧
    (f.nextOpcode? = some .return → ¬ (m.step host f).HasFailed →
      (m.step host f).machine.openCells =
        m.openCells.filter fun e => e.place.depth ≠ m.depth) := by
  have hm : m.IsOrderly := isOrderly_of_unfinished hcells (isOrderly_idle hopen) hreached
  refine ⟨hm.findsCells, fun count g taken => ?_, ?_, fun hop hok => ?_⟩
  · exact (Deed.keepsOrder_takeCells g count taken m hm).findsCells
  · exact (isOrderly_stepInPlace hcells hm f).findsCells
  · exact (openCells_of_return hop hok).trans hm.findsCells.closed

/-- A function that captures one cell and returns what is in it. -/
def readingOne : Function Value :=
  ⟨0, some "readingOne", 0, 1, ⟨#[10, 0, 27], #[1, 1, 1], #[]⟩⟩

/-- A script that captures its second local before its first one, and then a slot that is there
only once the closure is. -/
def capturingBackwards : Function Value :=
  ⟨1, none, 0, 0, ⟨#[2, 2, 26, 0, 1, 2, 26, 0, 1, 1, 26, 0, 1, 5, 27],
    #[1, 1, 1, 1, 1, 1, 1, 1, 1, 1, 1, 1, 1, 1, 1], #[.function readingOne]⟩⟩

/-- A closure of that function over a cell. -/
def readingCellOf (id : Identity) (cell : Nat) : Value := .closure ⟨id, readingOne, #[⟨cell⟩]⟩

/-- The frame in front of the return, when the three closures are there. -/
def backwardsFrame : Frame :=
  ⟨capturingBackwards, #[], 14, #[.function capturingBackwards, .boolean true, .boolean true,
    readingCellOf 0 0, readingCellOf 1 1, readingCellOf 2 2]⟩

/-- The machine at that moment. -/
def backwardsMachine : Machine Console where
  openCells := #[⟨⟨0, 1⟩, ⟨1⟩⟩, ⟨⟨0, 2⟩, ⟨0⟩⟩, ⟨⟨0, 5⟩, ⟨2⟩⟩]
  store := ⟨#[.boolean true, .boolean true, readingCellOf 2 2], 3⟩
  world := {}

theorem ending_capturingBackwards :
    ending Console.host 5 { world := {} } (scriptFrame capturingBackwards) =
      .unfinished backwardsFrame backwardsMachine := by
  cbv

/-- The cells that were made first, second and third stand in the order of their slots, are found
there, and go with the return. -/
theorem open_cells_in_order_backwards :
    ending Console.host 5 { world := {} } (scriptFrame capturingBackwards) =
      .unfinished backwardsFrame backwardsMachine ∧
    backwardsMachine.openCells.locate ⟨0, 2⟩ = .ok 1 ∧
    backwardsMachine.cellFor 2 .nil = (⟨0⟩, backwardsMachine) ∧
    (backwardsMachine.step Console.host backwardsFrame).machine.openCells = #[] := by
  obtain ⟨hfinds, -, -, hreturn⟩ :=
    open_cells_in_order keepsCells_console rfl ending_capturingBackwards
  refine ⟨ending_capturingBackwards, ?_, ?_, ?_⟩
  · exact (hfinds.found ⟨0, 2⟩ 1).mpr ⟨⟨0⟩, rfl⟩
  · exact hfinds.captured 2 .nil ⟨0⟩ (Array.mem_of_getElem? (i := 1) rfl)
  · refine (hreturn rfl ?_).trans rfl
    rintro ⟨failure, m, hfailed⟩
    cases hfailed

end ScriptEngine
