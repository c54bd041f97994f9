import ScriptEngine.Proofs.Machine.OpenCells
import ScriptEngine.Proofs.Machine.Turn
set_option autoImplicit false

/-!
# Machine: the cells of captured variables

Different slots have different open cells (`Machine.IsOrdered`), and an open cell is
that of a slot which some live frame has, and whose variable may have been captured
(`Machine.IsTidy`).  A step keeps this, and it keeps the cell of a slot if and only if
it does not take the value in the slot off the stack (`Machine.Evolves`).
-/

namespace ScriptEngine

open Machine

variable {World : Type}

/-! ## Taking cells -/

/-- Different slots have different cells, all of them in the store. -/
structure Machine.IsOrdered (m : Machine World) : Prop where
  sorted : m.openCells.Sorted
  apart : ∀ a ∈ m.openCells, ∀ b ∈ m.openCells, a.cell = b.cell → a = b
  stored : ∀ e ∈ m.openCells, e.cell.index < m.store.cells.size

/-- The entry is for a new cell, which holds what the slot of the frame holds. -/
structure OpenCell.IsFresh (f : Frame) (cs : List Capture) (m m' : Machine World)
    (e : OpenCell) : Prop where
  new : m.store.cells.size ≤ e.cell.index
  depth : e.place.depth = m.depth
  captured : ⟨true, e.place.slot⟩ ∈ cs
  content : m'.store.read e.cell = f.slots[e.place.slot]?.getD .nil

/-- What it comes to that cells were taken for some captures. -/
structure Gathers (f : Frame) (cs : List Capture) (m m' : Machine World)
    (taken taken' : Taken) : Prop where
  ordered : m'.IsOrdered
  callers : m'.callers = m.callers
  grows : m.store.cells.size ≤ m'.store.cells.size
  reads : ∀ c : Cell, c.index < m.store.cells.size → m'.store.read c = m.store.read c
  kept : ∀ e ∈ m.openCells, e ∈ m'.openCells
  fresh : ∀ e ∈ m'.openCells, e ∈ m.openCells ∨ e.IsFresh f cs m m'
  old : ∀ (i : Nat) (c : Cell), taken.cells[i]? = some c → taken'.cells[i]? = some c
  cells : ∀ (i : Nat) (c : Capture), cs[i]? = some c → c.isLocal = true →
    ∃ cell, taken'.cells[taken.cells.size + i]? = some cell ∧
      ⟨⟨m.depth, c.index⟩, cell⟩ ∈ m'.openCells
  /-- If there is a cell for the closure itself, it is that of its slot. -/
  own : ∀ cell, taken'.own = some cell → taken.own = some cell ∨
    ⟨⟨m.depth, f.slots.size⟩, cell⟩ ∈ m'.openCells
  ownTaken : taken.own.isSome = true ∨ ⟨true, f.slots.size⟩ ∈ cs → taken'.own.isSome = true

section Taking

variable {f : Frame} {m m' m'' : Machine World} {taken taken' taken'' : Taken}

/-- The cell for a slot is its open cell from then on. -/
structure Fetches (m m' : Machine World) (slot : Nat) (v : Value) (cell : Cell) : Prop where
  ordered : m'.IsOrdered
  callers : m'.callers = m.callers
  grows : m.store.cells.size ≤ m'.store.cells.size
  reads : ∀ c : Cell, c.index < m.store.cells.size → m'.store.read c = m.store.read c
  opened : ⟨⟨m.depth, slot⟩, cell⟩ ∈ m'.openCells
  kept : ∀ e ∈ m.openCells, e ∈ m'.openCells
  fresh : ∀ e ∈ m'.openCells, e ∈ m.openCells ∨
    (e = ⟨⟨m.depth, slot⟩, cell⟩ ∧ m.store.cells.size ≤ cell.index ∧ m'.store.read cell = v)

theorem fetches_cellFor (hm : m.IsOrdered) (slot : Nat) (v : Value) :
    Fetches m (m.cellFor slot v).2 slot v (m.cellFor slot v).1 := by
  unfold cellFor
  dsimp only
  split
  · next cell hfind =>
    exact ⟨hm, rfl, Nat.le_refl _, fun _ _ => rfl, (OpenCells.find_eq_some_iff hm.sorted).mp hfind,
      fun _ he => he, fun _ he => .inl he⟩
  · next hfind =>
    have hnone := (OpenCells.find_eq_none_iff hm.sorted).mp hfind
    have hmem : ∀ e, e ∈ m.openCells.insert ⟨m.depth, slot⟩ ⟨m.store.cells.size⟩ ↔
        e = ⟨⟨m.depth, slot⟩, ⟨m.store.cells.size⟩⟩ ∨ e ∈ m.openCells := fun e =>
      OpenCells.mem_insert hnone
    have hsize : (m.store.alloc v).2.cells.size = m.store.cells.size + 1 := Array.size_push _
    have hnew : ∀ e ∈ m.openCells, e.cell ≠ ⟨m.store.cells.size⟩ := by
      intro e he heq
      have hlt := hm.stored e he
      rw [heq] at hlt
      exact Nat.lt_irrefl _ hlt
    refine ⟨⟨hm.sorted.insert hnone _, ?_, ?_⟩, rfl, ?_, ?_, ?_, ?_, ?_⟩
    · intro a ha b hb hab
      rcases (hmem a).mp ha with rfl | ha <;> rcases (hmem b).mp hb with rfl | hb
      · rfl
      · exact absurd hab.symm (hnew b hb)
      · exact absurd hab (hnew a ha)
      · exact hm.apart a ha b hb hab
    · intro e he
      show e.cell.index < (m.store.alloc v).2.cells.size
      rw [hsize]
      rcases (hmem e).mp he with rfl | he
      · exact Nat.lt_succ_self _
      · exact Nat.lt_succ_of_lt (hm.stored e he)
    · show m.store.cells.size ≤ (m.store.alloc v).2.cells.size
      rw [hsize]
      exact Nat.le_succ _
    · exact fun c hc => Store.read_alloc_of_lt v hc
    · exact (hmem _).mpr (.inl rfl)
    · exact fun e he => (hmem e).mpr (.inr he)
    · intro e he
      rcases (hmem e).mp he with rfl | he
      · exact .inr ⟨rfl, Nat.le_refl _, Store.read_alloc m.store v⟩
      · exact .inl he

theorem depth_eq (h : m'.callers = m.callers) : m'.depth = m.depth :=
  congrArg List.length h

theorem gathers_takeOne (hm : m.IsOrdered) (c : Capture) (taken : Taken) :
    Gathers f [c] m (takeOne f c taken m).2 taken (takeOne f c taken m).1 := by
  obtain ⟨isLocal, index⟩ := c
  have hpush : ∀ (cells : Array Cell) (new : Cell) (i : Nat) (c : Cell),
      cells[i]? = some c → (cells.push new)[i]? = some c := by
    intro cells new i c hc
    have hlt := (Array.getElem?_eq_some_iff.mp hc).1
    rw [Array.getElem?_push, if_neg (Nat.ne_of_lt hlt), hc]
  unfold takeOne
  cases isLocal with
  | false =>
    refine ⟨hm, rfl, Nat.le_refl _, fun _ _ => rfl, fun _ he => he, fun _ he => .inl he,
      hpush _ _, ?_, fun _ h => .inl h, ?_⟩
    · intro i c hc hlocal
      obtain rfl := List.mem_singleton.mp (List.mem_of_getElem? hc)
      cases hlocal
    · rintro (h | h)
      · exact h
      · cases List.mem_singleton.mp h
  | true =>
    have hfetch := fetches_cellFor hm index (f.slots[index]?.getD .nil)
    cases hcell : m.cellFor index (f.slots[index]?.getD .nil) with
    | mk cell after =>
    rw [hcell] at hfetch
    dsimp only
    refine ⟨hfetch.ordered, hfetch.callers, hfetch.grows, hfetch.reads, hfetch.kept, ?_,
      hpush _ _, ?_, ?_, ?_⟩
    · intro e he
      rcases hfetch.fresh e he with hold | ⟨rfl, hnew, hread⟩
      · exact .inl hold
      · exact .inr ⟨hnew, rfl, List.mem_cons_self, hread⟩
    · intro i c hc _
      obtain ⟨hi, rfl⟩ := List.getElem?_eq_some_iff.mp hc
      obtain rfl : i = 0 := Nat.lt_one_iff.mp hi
      exact ⟨cell, Array.getElem?_push_size, hfetch.opened⟩
    · intro own (hown : (if index = f.slots.size then some cell else taken.own) = some own)
      split at hown
      · next hindex =>
        cases hown
        exact .inr (hindex ▸ hfetch.opened)
      · exact .inl hown
    · intro h
      show (if index = f.slots.size then some cell else taken.own).isSome = true
      split
      · rfl
      · next hindex =>
        refine h.resolve_right fun hmem => hindex ?_
        exact congrArg Capture.index (List.mem_singleton.mp hmem).symm

theorem Gathers.trans {c : Capture} {cs : List Capture} (h : Gathers f [c] m m' taken taken')
    (hsize : taken'.cells.size = taken.cells.size + 1)
    (k : Gathers f cs m' m'' taken' taken'') : Gathers f (c :: cs) m m'' taken taken'' where
  ordered := k.ordered
  callers := k.callers.trans h.callers
  grows := Nat.le_trans h.grows k.grows
  reads cell hcell := (k.reads cell (Nat.lt_of_lt_of_le hcell h.grows)).trans (h.reads cell hcell)
  kept e he := k.kept e (h.kept e he)
  fresh e he := by
    rcases k.fresh e he with hmid | hfresh
    · rcases h.fresh e hmid with hold | hfresh
      · exact .inl hold
      · have hread := k.reads e.cell (h.ordered.stored e hmid)
        exact .inr ⟨hfresh.new, hfresh.depth, List.mem_cons.mpr (.inl
          (List.mem_singleton.mp hfresh.captured)), hread.trans hfresh.content⟩
    · exact .inr ⟨Nat.le_trans h.grows hfresh.new, hfresh.depth.trans (depth_eq h.callers),
        List.mem_cons_of_mem _ hfresh.captured, hfresh.content⟩
  old i cell hcell := k.old i cell (h.old i cell hcell)
  cells i c' hc hlocal := by
    cases i with
    | zero =>
      obtain ⟨cell, hcell, hmem⟩ := h.cells 0 c' hc hlocal
      exact ⟨cell, k.old _ _ hcell, k.kept _ hmem⟩
    | succ i =>
      obtain ⟨cell, hcell, hmem⟩ := k.cells i c' hc hlocal
      rw [hsize, Nat.add_assoc, Nat.add_comm 1 i] at hcell
      exact ⟨cell, hcell, depth_eq h.callers ▸ hmem⟩
  own cell hcell := by
    rcases k.own cell hcell with hmid | hmem
    · rcases h.own cell hmid with hold | hmem
      · exact .inl hold
      · exact .inr (k.kept _ hmem)
    · exact .inr (depth_eq h.callers ▸ hmem)
  ownTaken hown := by
    refine k.ownTaken ?_
    rcases hown with hold | hmem
    · exact .inl (h.ownTaken (.inl hold))
    · rcases List.mem_cons.mp hmem with rfl | hmem
      · exact .inl (h.ownTaken (.inr List.mem_cons_self))
      · exact .inr hmem

theorem gathers_takeAll (hm : m.IsOrdered) (cs : List Capture) (taken : Taken) :
    Gathers f cs m (takeAll f cs taken m).2 taken (takeAll f cs taken m).1 := by
  induction cs generalizing m taken with
  | nil =>
    refine ⟨hm, rfl, Nat.le_refl _, fun _ _ => rfl, fun _ he => he, fun _ he => .inl he,
      fun _ _ h => h, (fun _ _ h => nomatch h), fun _ h => .inl h, ?_⟩
    rintro (h | h)
    · exact h
    · cases h
  | cons c cs ih =>
    have hone : Gathers f [c] m _ taken _ := gathers_takeOne hm c taken
    exact hone.trans (size_takeOne f c taken m) (ih hone.ordered _)

end Taking

/-! ## Slots of live frames -/

/-- The slot exists in the frame, for a variable that may have been captured. -/
structure Frame.Exposes (L : Library) (f : Frame) (i : Nat) : Prop where
  inside : i < f.slots.size
  captured : ∃ Γ, f.At L Γ ∧ fromOldest? Γ i = some (.variable true)

/-- The live frame with so many calls suspended below it. -/
def Machine.frameAt (m : Machine World) (f : Frame) (depth : Nat) : Option Frame :=
  fromOldest? (f :: m.callers) depth

/-- Each open cell is that of a slot which exists. -/
structure Machine.IsTidy (L : Library) (m : Machine World) (f : Frame) : Prop
    extends m.IsOrdered where
  live : ∀ e ∈ m.openCells,
    ∃ g, m.frameAt f e.place.depth = some g ∧ g.Exposes L e.place.slot

/-- The next instruction takes the value in the slot off the stack. -/
def Machine.Vacates (m : Machine World) (f : Frame) (place : SlotPlace) : Prop :=
  place.depth = m.depth ∧ f.spared ≤ place.slot

/-- A slot keeps its cell until its value is taken off the stack, and a cell that was
not open is a new one. -/
structure Machine.Evolves (m : Machine World) (f : Frame) (m' : Machine World) : Prop where
  grows : m.store.cells.size ≤ m'.store.cells.size
  kept : ∀ e ∈ m.openCells, (e ∈ m'.openCells ↔ ¬ m.Vacates f e.place)
  fresh : ∀ e ∈ m'.openCells, e ∈ m.openCells ∨ m.store.cells.size ≤ e.cell.index

section Steps

variable {L : Library} {host : Host World} {m m' : Machine World} {f f' g : Frame}
  {Γ Δ Θ : Layout} {i d : Nat}

theorem Frame.Runs.exposes (h : f.Runs L Γ) (hi : fromOldest? Γ i = some (.variable true)) :
    f.Exposes L i :=
  ⟨h.size ▸ lt_of_fromOldest hi, Γ, h.toAt, hi⟩

theorem Frame.Exposes.fromOldest (h : f.Exposes L i) (hf : f.At L Γ) :
    fromOldest? Γ i = some (.variable true) := by
  obtain ⟨Δ, hat, hi⟩ := h.captured
  have hsame : Δ = Γ := Option.some.inj (hat.layout.symm.trans hf.layout)
  rw [← hsame, hi]

theorem frameAt_depth (m : Machine World) (f : Frame) : m.frameAt f m.depth = some f :=
  fromOldest_cons_self f m.callers

theorem frameAt_of_lt (h : d < m.depth) : m.frameAt f d = fromOldest? m.callers d :=
  fromOldest_cons_of_lt h

theorem le_depth_of_frameAt (h : m.frameAt f d = some g) : d ≤ m.depth :=
  Nat.le_of_lt_succ (lt_of_fromOldest h)

/-- The suspended frames stay as they are. -/
theorem live_of_callers (hcallers : m'.callers = m.callers)
    (h : ∃ g, m.frameAt f d = some g ∧ g.Exposes L i)
    (hnew : d = m.depth → f.Exposes L i → f'.Exposes L i) :
    ∃ g, m'.frameAt f' d = some g ∧ g.Exposes L i := by
  obtain ⟨g, hg, hexposes⟩ := h
  have hdepth := depth_eq hcallers
  rcases Nat.lt_or_eq_of_le (le_depth_of_frameAt hg) with hlt | rfl
  · rw [frameAt_of_lt hlt] at hg
    rw [frameAt_of_lt (hdepth ▸ hlt), hcallers]
    exact ⟨g, hg, hexposes⟩
  · rw [frameAt_depth] at hg
    cases hg
    refine ⟨f', ?_, hnew rfl hexposes⟩
    rw [← hdepth, frameAt_depth]

/-- Within the frame the captured variables stay in their slots. -/
theorem Machine.IsTidy.not_vacates (hm : m.IsTidy L f) (hf : f.Runs L Γ) (hspared : Γ.SparedBy f)
    {e : OpenCell} (he : e ∈ m.openCells) : ¬ m.Vacates f e.place := by
  rintro ⟨hdepth, hle⟩
  obtain ⟨g, hg, hexposes⟩ := hm.live e he
  rw [hdepth, frameAt_depth] at hg
  cases hg
  exact Nat.not_lt.mpr hle (hspared _ (hexposes.fromOldest hf.toAt))

theorem store_closeFrame (m : Machine World) : m.closeFrame.store = m.store := by
  unfold closeFrame
  split <;> rfl

theorem size_fill (store : Store) (own : Option Cell) (v : Value) :
    (fill store own v).cells.size = store.cells.size := by
  cases own with
  | none => rfl
  | some c => exact size_write store c v

/-- What a step does to the open cells. -/
theorem Turn.evolves (hcells : host.KeepsCells) (hf : f.Runs L Γ) (hm : m.IsTidy L f)
    (h : Turn L host m f Γ (.running f' m')) : m.Evolves f m' ∧ m'.IsTidy L f' := by
  cases h with
  | inside runs hspared keeps _ hcallers hopen hsize =>
    have hgrows := hsize hcells
    have hmem : ∀ e, e ∈ m'.openCells ↔ e ∈ m.openCells := fun e => by rw [hopen]
    refine ⟨⟨hgrows, fun e he => ?_, fun e he => .inl ((hmem e).mp he)⟩,
      ⟨hopen ▸ hm.sorted, hopen ▸ hm.apart, fun e he => ?_⟩, fun e he => ?_⟩
    · exact iff_of_true ((hmem e).mpr he) (hm.not_vacates hf hspared he)
    · exact Nat.lt_of_lt_of_le (hm.stored e ((hmem e).mp he)) hgrows
    · refine live_of_callers hcallers (hm.live e ((hmem e).mp he)) fun _ hexposes => ?_
      exact runs.exposes (keeps _ (hexposes.fromOldest hf.toAt))
  | @retire ip Θ b runs hspared keeps top _ =>
    obtain ⟨Δ, rfl⟩ := top
    have hsize : f.slots.pop.size = Δ.length := by
      rw [Array.size_pop, hf.size]
      rfl
    have hmem : ∀ e, e ∈ m.openCells.erase ⟨m.depth, f.slots.pop.size⟩ ↔
        e ∈ m.openCells ∧ e.place ≠ ⟨m.depth, f.slots.pop.size⟩ := fun e =>
      OpenCells.mem_erase hm.sorted
    -- the slot that is given up is the last one of the frame
    have hlast : ∀ e ∈ m.openCells, m.Vacates f e.place ↔
        e.place = ⟨m.depth, f.slots.pop.size⟩ := by
      intro e he
      unfold Machine.Vacates
      rw [hspared]
      constructor
      · rintro ⟨hdepth, hle⟩
        obtain ⟨g, hg, hexposes⟩ := hm.live e he
        rw [hdepth, frameAt_depth] at hg
        cases hg
        have hlt := lt_of_fromOldest (hexposes.fromOldest hf.toAt)
        rw [List.length_cons, ← hsize] at hlt
        have hslot : e.place.slot = f.slots.pop.size :=
          Nat.le_antisymm (Nat.le_of_lt_succ hlt) hle
        rw [← hdepth, ← hslot]
      · intro hplace
        rw [hplace]
        exact ⟨rfl, Nat.le_refl _⟩
    refine ⟨⟨Nat.le_refl _, fun e he => ?_, fun e he => .inl ((hmem e).mp he).1⟩,
      ⟨hm.sorted.erase _, fun a ha b hb => ?_, fun e he => ?_⟩, fun e he => ?_⟩
    · rw [hlast e he]
      exact (hmem e).trans (and_iff_right he)
    · exact hm.apart a ((hmem a).mp ha).1 b ((hmem b).mp hb).1
    · exact hm.stored e ((hmem e).mp he).1
    · obtain ⟨hold, hplace⟩ := (hmem e).mp he
      refine live_of_callers rfl (hm.live e hold)
        fun (hdepth : e.place.depth = m.depth) hexposes => ?_
      refine runs.exposes (keeps Δ rfl _ ?_)
      have hcaptured := hexposes.fromOldest hf.toAt
      rw [fromOldest?, if_neg] at hcaptured
      · exact hcaptured
      · intro hslot
        exact hplace (by rw [← hdepth, hsize, ← hslot])
  | @closure ip Θ g cs taken after closure hclosure htake ready runs hspared keeps _ =>
    have hgathers := gathers_takeAll (f := f) hm.toIsOrdered cs {}
    rw [htake] at hgathers
    have hsize : (fill after.store.freshId.2 taken.own closure).cells.size =
        after.store.cells.size := size_fill ..
    refine ⟨⟨Nat.le_trans hgathers.grows (Nat.le_of_eq hsize.symm), fun e he => ?_,
      fun e he => ?_⟩, ⟨hgathers.ordered.sorted, hgathers.ordered.apart, fun e he => ?_⟩,
      fun e he => ?_⟩
    · exact iff_of_true (hgathers.kept e he) (hm.not_vacates hf hspared he)
    · exact (hgathers.fresh e he).imp id fun hfresh => hfresh.new
    · exact Nat.lt_of_lt_of_le (hgathers.ordered.stored e he) (Nat.le_of_eq hsize.symm)
    · rcases hgathers.fresh e he with hold | hfresh
      · refine live_of_callers hgathers.callers (hm.live e hold) fun _ hexposes => ?_
        exact runs.exposes (keeps _ (hexposes.fromOldest hf.toAt))
      · have hready : _ ∧ _ := ready _ hfresh.captured
        refine ⟨_, ?_, runs.exposes hready.2⟩
        rw [hfresh.depth, ← depth_eq hgathers.callers]
        exact frameAt_depth _ _
  | @enter g ip base Θ runs waits keeps hspared below _ =>
    refine ⟨⟨Nat.le_refl _, fun e he => ?_, fun e he => .inl he⟩,
      ⟨hm.sorted, hm.apart, hm.stored⟩, fun e he => ?_⟩
    · exact iff_of_true he (hm.not_vacates hf hspared he)
    · obtain ⟨g', hg', hexposes⟩ := hm.live e he
      have hle := le_depth_of_frameAt hg'
      show ∃ g', fromOldest? (_ :: f.goTo ip (f.slots.take base) :: m.callers) _ = some g' ∧ _
      rw [fromOldest_cons_of_lt (Nat.lt_succ_of_le hle)]
      rcases Nat.lt_or_eq_of_le hle with hlt | heq
      · rw [frameAt_of_lt hlt] at hg'
        rw [fromOldest_cons_of_lt hlt]
        exact ⟨g', hg', hexposes⟩
      · rw [heq, frameAt_depth] at hg'
        cases hg'
        have hcaptured := hexposes.fromOldest hf.toAt
        refine ⟨_, heq ▸ fromOldest_cons_self .., ?_, Θ, waits.toAt, keeps _ hcaptured⟩
        show _ < (f.slots.take base).size
        rw [Array.take_eq_extract, Array.size_extract]
        exact Nat.lt_min.mpr ⟨below _ hcaptured, hexposes.inside⟩
  | @«return» caller callers v sound hspared hcallers value =>
    have hdepth : m.depth = callers.length + 1 := by
      unfold Machine.depth
      rw [hcallers]
      rfl
    have hstore : ({ m.closeFrame with callers } : Machine World).store = m.store :=
      store_closeFrame m
    have hopen : ({ m.closeFrame with callers } : Machine World).openCells =
        m.openCells.below m.depth := openCells_closeFrame m
    have hmem : ∀ e, e ∈ ({ m.closeFrame with callers } : Machine World).openCells ↔
        e ∈ m.openCells ∧ e.place.depth < m.depth := fun e => by
      rw [hopen]
      exact OpenCells.mem_below hm.sorted
    refine ⟨⟨Nat.le_of_eq (by rw [hstore]), fun e he => ?_, fun e he => .inl ((hmem e).mp he).1⟩,
      ⟨hopen ▸ hm.sorted.below _, fun a ha b hb => ?_, fun e he => ?_⟩, fun e he => ?_⟩
    · obtain ⟨g, hg, -⟩ := hm.live e he
      have hle := le_depth_of_frameAt hg
      rw [hmem e, and_iff_right he, Nat.lt_iff_le_and_ne, and_iff_right hle]
      unfold Machine.Vacates
      rw [hspared, and_iff_left (Nat.zero_le _)]
    · exact hm.apart a ((hmem a).mp ha).1 b ((hmem b).mp hb).1
    · rw [hstore]
      exact hm.stored e ((hmem e).mp he).1
    · obtain ⟨hold, hlt⟩ := (hmem e).mp he
      obtain ⟨g, hg, hexposes⟩ := hm.live e hold
      rw [frameAt_of_lt hlt, hcallers] at hg
      show ∃ g, fromOldest? (caller.push v :: callers) _ = some g ∧ _
      rw [hdepth] at hlt
      rcases Nat.lt_or_eq_of_le (Nat.le_of_lt_succ hlt) with hlt | heq
      · rw [fromOldest_cons_of_lt hlt] at hg
        rw [fromOldest_cons_of_lt hlt]
        exact ⟨g, hg, hexposes⟩
      · rw [heq, fromOldest_cons_self] at hg
        cases hg
        obtain ⟨Δ, hat, hcaptured⟩ := hexposes.captured
        refine ⟨_, heq ▸ fromOldest_cons_self .., ?_, Δ, ?_, hcaptured⟩
        · show _ < (caller.slots.push v).size
          rw [Array.size_push]
          exact Nat.lt_succ_of_lt hexposes.inside
        · exact ⟨hat.has, hat.layout, hat.allowed, values_push hat.values value⟩

end Steps

end ScriptEngine
