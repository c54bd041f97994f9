import ScriptEngine.Value
set_option autoImplicit false

/-!
# Machine: open cells

While a call is active, a slot of its frame that was captured has an open cell:
another capture of the same slot shares it.  The open cells are kept in the
order of their places, outermost call first, and are found by bisection.

`lowerBound_le` says that a bisection stays within its bounds.
-/

namespace ScriptEngine

/-! ## Places -/

/-- A slot of an active call. -/
structure SlotPlace where
  /-- How many calls are suspended below the one that owns the slot. -/
  depth : Nat
  slot : Nat
  deriving DecidableEq, Repr, Inhabited

namespace SlotPlace

/-- Places are ordered by call, outermost first, and by slot within a call. -/
def Before (p q : SlotPlace) : Prop :=
  p.depth < q.depth ∨ (p.depth = q.depth ∧ p.slot < q.slot)

instance (p q : SlotPlace) : Decidable (p.Before q) :=
  inferInstanceAs (Decidable (_ ∨ _))

theorem Before.trans {p q r : SlotPlace} (h : p.Before q) (k : q.Before r) :
    p.Before r := by
  unfold Before at *
  omega

theorem not_before_self (p : SlotPlace) : ¬ p.Before p := by
  unfold Before
  omega

end SlotPlace

/-! ## Tables -/

/-- A captured slot and its cell. -/
structure OpenCell where
  place : SlotPlace
  cell : Cell
  deriving DecidableEq, Repr, Inhabited

/-- The open cells in the order of their places. -/
abbrev OpenCells : Type := Array OpenCell

namespace OpenCells

/-- Bisects the entries from `low` up to `high`, of which the ones below the
result come before `p` and the others do not. -/
def bisect (o : OpenCells) (p : SlotPlace) (low high : Nat) : Nat :=
  if _h : low < high then
    let middle := low + (high - low) / 2
    match o[middle]? with
    | some entry =>
        if entry.place.Before p then bisect o p (middle + 1) high
        else bisect o p low middle
    | none => bisect o p low middle
  else low
termination_by high - low
decreasing_by all_goals omega

/-- How many entries come before `p`. -/
def lowerBound (o : OpenCells) (p : SlotPlace) : Nat := o.bisect p 0 o.size

/-- The position of the entry for `p`, or where it would have to be put. -/
def locate (o : OpenCells) (p : SlotPlace) : Except Nat Nat :=
  let i := o.lowerBound p
  match o[i]? with
  | some entry => if entry.place = p then .ok i else .error i
  | none => .error i

/-- The cell for `p`, if it is open. -/
def find? (o : OpenCells) (p : SlotPlace) : Option Cell :=
  match o.locate p with
  | .ok i => o[i]?.map OpenCell.cell
  | .error _ => none

/-- Adds a cell for a place that has none. -/
def insert (o : OpenCells) (p : SlotPlace) (c : Cell) : OpenCells :=
  match o.locate p with
  | .ok _ => o
  | .error i => o.insertIdxIfInBounds i ⟨p, c⟩

/-- Removes the cell for a place, if there is one. -/
def erase (o : OpenCells) (p : SlotPlace) : OpenCells :=
  match o.locate p with
  | .ok i => o.eraseIdxIfInBounds i
  | .error _ => o

/-- Keeps the cells of the calls with fewer than `depth` suspended below
them. -/
def below (o : OpenCells) (depth : Nat) : OpenCells :=
  o.take (o.lowerBound ⟨depth, 0⟩)

/-! ## Bisection -/

theorem bisect_le (o : OpenCells) (p : SlotPlace) {low high : Nat}
    (h : low ≤ high) : o.bisect p low high ≤ high := by
  fun_induction bisect o p low high with
  | case1 low high _ _ _ _ _ ih => exact ih (by omega)
  | case2 low high _ _ _ _ _ ih => exact Nat.le_trans (ih (by omega)) (by omega)
  | case3 low high _ _ _ ih => exact Nat.le_trans (ih (by omega)) (by omega)
  | case4 low high _ => exact h

theorem lowerBound_le (o : OpenCells) (p : SlotPlace) :
    o.lowerBound p ≤ o.size :=
  o.bisect_le p (Nat.zero_le _)

end OpenCells

end ScriptEngine
