import ScriptEngine.Proofs.Loops.Twins
set_option autoImplicit false

/-!
# Opening cells

What a closure takes from the machine does not depend on the order in which it takes it: a cell for
each captured slot that has none yet (`Opens`), and the cells for its captures.  Closures with the
same captures in other orders therefore leave twins behind (`Machine.Twins.takeAll`).
-/

namespace ScriptEngine

open Machine

variable {World : Type}

/-! ## Cells for slots -/

/-- Cells were opened for the slots of a frame for which `wanted` holds, unless they were open
before, and nothing else was done. -/
structure Opens (f : Frame) (wanted : Nat → Prop) (m after : Machine World) : Prop where
  callers : after.callers = m.callers
  globals : after.globals = m.globals
  world : after.world = m.world
  nextId : after.store.nextId = m.store.nextId
  sorted : after.openCells.Sorted
  size : m.store.cells.size ≤ after.store.cells.size
  kept : ∀ c : Cell, c.index < m.store.cells.size → after.store.read c = m.store.read c
  old : ∀ p c, m.openCells.find? p = some c → after.openCells.find? p = some c
  fresh : ∀ p c, m.openCells.find? p = none → after.openCells.find? p = some c →
    p.depth = m.depth ∧ wanted p.slot ∧ m.store.cells.size ≤ c.index ∧
      c.index < after.store.cells.size ∧ after.store.read c = f.slots[p.slot]?.getD .nil
  opened : ∀ slot, wanted slot → ∃ c, after.openCells.find? ⟨m.depth, slot⟩ = some c
  apart : ∀ p q c, m.openCells.find? p = none → after.openCells.find? p = some c →
    m.openCells.find? q = none → after.openCells.find? q = some c → p = q

section Opens

variable {f : Frame} {wanted wanted' : Nat → Prop} {m k after : Machine World}

theorem Opens.depth_eq (h : Opens f wanted m after) : after.depth = m.depth :=
  congrArg List.length h.callers

theorem opens_nothing (f : Frame) (h : m.openCells.Sorted) : Opens f (fun _ => False) m m where
  callers := rfl
  globals := rfl
  world := rfl
  nextId := rfl
  sorted := h
  size := Nat.le_refl _
  kept _ _ := rfl
  old _ _ hfind := hfind
  fresh p c hnone hsome := by
    rw [hnone] at hsome
    cases hsome
  opened _ hfalse := hfalse.elim
  apart p q c hnone hsome := by
    rw [hnone] at hsome
    cases hsome

theorem Opens.trans (h : Opens f wanted m k) (l : Opens f wanted' k after) :
    Opens f (fun slot => wanted slot ∨ wanted' slot) m after where
  callers := l.callers.trans h.callers
  globals := l.globals.trans h.globals
  world := l.world.trans h.world
  nextId := l.nextId.trans h.nextId
  sorted := l.sorted
  size := Nat.le_trans h.size l.size
  kept c hc := (l.kept c (Nat.lt_of_lt_of_le hc h.size)).trans (h.kept c hc)
  old p c hfind := l.old p c (h.old p c hfind)
  fresh p c hnone hsome := by
    cases hmiddle : k.openCells.find? p with
    | none =>
      obtain ⟨hdepth, hwanted, hle, hlt, hread⟩ := l.fresh p c hmiddle hsome
      exact ⟨hdepth.trans h.depth_eq, .inr hwanted, Nat.le_trans h.size hle, hlt, hread⟩
    | some d =>
      obtain rfl : d = c := Option.some.inj ((l.old p d hmiddle).symm.trans hsome)
      obtain ⟨hdepth, hwanted, hle, hlt, hread⟩ := h.fresh p d hnone hmiddle
      exact ⟨hdepth, .inl hwanted, hle, Nat.lt_of_lt_of_le hlt l.size, (l.kept d hlt).trans hread⟩
  opened slot hor := by
    rcases hor with hwanted | hwanted
    · obtain ⟨c, hc⟩ := h.opened slot hwanted
      exact ⟨c, l.old _ c hc⟩
    · obtain ⟨c, hc⟩ := l.opened slot hwanted
      rw [h.depth_eq] at hc
      exact ⟨c, hc⟩
  apart p q c hp hp' hq hq' := by
    -- cells of the second part are behind those of the first one
    cases hpk : k.openCells.find? p with
    | none =>
      cases hqk : k.openCells.find? q with
      | none => exact l.apart p q c hpk hp' hqk hq'
      | some d =>
        obtain rfl : d = c := Option.some.inj ((l.old q d hqk).symm.trans hq')
        have hlt := (h.fresh q d hq hqk).2.2.2.1
        have hle := (l.fresh p d hpk hp').2.2.1
        omega
    | some d =>
      obtain rfl : d = c := Option.some.inj ((l.old p d hpk).symm.trans hp')
      cases hqk : k.openCells.find? q with
      | none =>
        have hlt := (h.fresh p d hp hpk).2.2.2.1
        have hle := (l.fresh q d hqk hq').2.2.1
        omega
      | some e =>
        obtain rfl : e = d := Option.some.inj ((l.old q e hqk).symm.trans hq')
        exact h.apart p q e hp hpk hq hqk

theorem Opens.congr (h : Opens f wanted m after) (heq : ∀ slot, wanted slot ↔ wanted' slot) :
    Opens f wanted' m after := by
  obtain rfl : wanted = wanted' := funext fun slot => propext (heq slot)
  exact h

/-- The cell for a slot is the one that is open, or a new one with the value of the slot. -/
theorem opens_cellFor (f : Frame) (h : m.openCells.Sorted) (slot : Nat) :
    Opens f (· = slot) m (m.cellFor slot (f.slots[slot]?.getD .nil)).2 ∧
      (m.cellFor slot (f.slots[slot]?.getD .nil)).2.openCells.find? ⟨m.depth, slot⟩ =
        some (m.cellFor slot (f.slots[slot]?.getD .nil)).1 := by
  unfold cellFor
  dsimp only
  cases hfind : m.openCells.find? ⟨m.depth, slot⟩ with
  | some c =>
    have hnothing := opens_nothing f h
    exact ⟨⟨rfl, rfl, rfl, rfl, h, Nat.le_refl _, fun _ _ => rfl, hnothing.old,
      fun p d hnone hsome => absurd (hnone.symm.trans hsome) nofun,
      fun other heq => ⟨c, heq ▸ hfind⟩, hnothing.apart⟩, hfind⟩
  | none =>
    have hplaces := (OpenCells.find_eq_none_iff h).mp hfind
    have hlookup : ∀ p, (m.openCells.insert ⟨m.depth, slot⟩ ⟨m.store.cells.size⟩).find? p =
        if p = ⟨m.depth, slot⟩ then some ⟨m.store.cells.size⟩ else m.openCells.find? p :=
      fun p => OpenCells.find_insert h hfind
    have hnew : ∀ p c, m.openCells.find? p = none →
        (m.openCells.insert ⟨m.depth, slot⟩ ⟨m.store.cells.size⟩).find? p = some c →
        p = ⟨m.depth, slot⟩ ∧ c = ⟨m.store.cells.size⟩ := by
      intro p c hnone hsome
      rw [hlookup] at hsome
      split at hsome
      · next heq => exact ⟨heq, (Option.some.inj hsome).symm⟩
      · rw [hnone] at hsome
        cases hsome
    have hsize : (m.store.cells.push (f.slots[slot]?.getD .nil)).size = m.store.cells.size + 1 :=
      Array.size_push _
    refine ⟨⟨rfl, rfl, rfl, rfl, h.insert hplaces _, ?_, ?_, ?_, ?_, ?_, ?_⟩, ?_⟩
    · exact hsize ▸ Nat.le_succ _
    · exact fun c hc => Store.read_alloc_of_lt _ hc
    · intro p c hsome
      refine (hlookup p).trans ((if_neg fun heq => ?_).trans hsome)
      rw [heq, hfind] at hsome
      cases hsome
    · intro p c hnone hsome
      obtain ⟨rfl, rfl⟩ := hnew p c hnone hsome
      exact ⟨rfl, rfl, Nat.le_refl _, hsize ▸ Nat.lt_succ_self _, Store.read_alloc _ _⟩
    · rintro other rfl
      exact ⟨_, (hlookup _).trans (if_pos rfl)⟩
    · intro p q c hp hp' hq hq'
      exact (hnew p c hp hp').1.trans (hnew q c hq hq').1.symm
    · exact (hlookup _).trans (if_pos rfl)

end Opens

/-! ## Cells for captures -/

/-- The slot is captured by one of some captures. -/
def Wanted (cs : List Capture) (slot : Nat) : Prop := ∃ c ∈ cs, c.isLocal = true ∧ c.index = slot

instance (cs : List Capture) (slot : Nat) : Decidable (Wanted cs slot) :=
  inferInstanceAs (Decidable (∃ c ∈ cs, _))

/-- The cell that a capture stands for, where the frame has `o` as its open cells. -/
def cellOf (f : Frame) (depth : Nat) (o : OpenCells) (c : Capture) : Cell :=
  if c.isLocal then (o.find? ⟨depth, c.index⟩).getD default else f.cells[c.index]?.getD default

/-- What has been taken for some captures, and what was opened for them. -/
structure Takes (f : Frame) (cs : List Capture) (m after : Machine World) (taken taken' : Taken) :
    Prop where
  opens : Opens f (Wanted cs) m after
  cells : taken'.cells = taken.cells ++ (cs.map (cellOf f m.depth after.openCells)).toArray
  own : taken'.own = if Wanted cs f.slots.size then after.openCells.find? ⟨m.depth, f.slots.size⟩
    else taken.own

section Takes

variable {f : Frame} {m : Machine World} {taken : Taken}

theorem takes_one (h : m.openCells.Sorted) (c : Capture) :
    Takes f [c] m (takeOne f c taken m).2 taken (takeOne f c taken m).1 := by
  have hwanted : ∀ slot, Wanted [c] slot ↔ c.isLocal = true ∧ c.index = slot := fun slot => by
    simp [Wanted]
  unfold takeOne
  split
  · next hlocal =>
    obtain ⟨hopens, hfind⟩ := opens_cellFor f h c.index
    have hslot : ∀ slot, slot = c.index ↔ Wanted [c] slot := fun slot => by
      rw [hwanted]
      exact ⟨fun heq => ⟨hlocal, heq.symm⟩, fun heq => heq.2.symm⟩
    refine ⟨hopens.congr hslot, ?_, ?_⟩
    · dsimp only
      rw [List.map_singleton, cellOf, if_pos hlocal, hfind]
      rfl
    · dsimp only
      by_cases hown : c.index = f.slots.size
      · rw [if_pos hown, if_pos ((hwanted _).mpr ⟨hlocal, hown⟩), ← hown, hfind]
      · rw [if_neg hown, if_neg fun hw => hown ((hwanted _).mp hw).2]
  · next hlocal =>
    refine ⟨(opens_nothing f h).congr fun slot => ?_, ?_, ?_⟩
    · rw [hwanted]
      exact ⟨False.elim, fun hw => absurd hw.1 hlocal⟩
    · dsimp only
      rw [List.map_singleton, cellOf, if_neg hlocal]
      rfl
    · exact (if_neg fun hw => hlocal ((hwanted _).mp hw).1).symm

theorem Takes.trans {cs cs' : List Capture} {k after : Machine World} {taken' taken'' : Taken}
    (h : Takes f cs m k taken taken') (l : Takes f cs' k after taken' taken'') :
    Takes f (cs ++ cs') m after taken taken'' := by
  have hwanted (slot : Nat) : Wanted (cs ++ cs') slot ↔ Wanted cs slot ∨ Wanted cs' slot := by
    simp only [Wanted, List.mem_append, or_and_right, exists_or]
  have hkept : ∀ c ∈ cs, cellOf f m.depth k.openCells c = cellOf f m.depth after.openCells c := by
    intro c hc
    unfold cellOf
    split
    · next hlocal =>
      obtain ⟨cell, hcell⟩ := h.opens.opened c.index ⟨c, hc, hlocal, rfl⟩
      rw [hcell, l.opens.old _ _ hcell]
    · rfl
  refine ⟨(h.opens.trans l.opens).congr fun slot => (hwanted slot).symm, ?_, ?_⟩
  · rw [l.cells, h.cells, h.opens.depth_eq, List.map_append, List.map_congr_left hkept]
    simp
  · rw [l.own, h.own, h.opens.depth_eq]
    by_cases hlater : Wanted cs' f.slots.size
    · rw [if_pos hlater, if_pos ((hwanted _).mpr (.inr hlater))]
    · rw [if_neg hlater]
      by_cases hearlier : Wanted cs f.slots.size
      · obtain ⟨cell, hcell⟩ := h.opens.opened _ hearlier
        rw [if_pos hearlier, if_pos ((hwanted _).mpr (.inl hearlier)), hcell,
          l.opens.old _ _ hcell]
      · rw [if_neg hearlier, if_neg fun hor => ((hwanted _).mp hor).elim hearlier hlater]

theorem takes_all (h : m.openCells.Sorted) (cs : List Capture) :
    Takes f cs m (takeAll f cs taken m).2 taken (takeAll f cs taken m).1 := by
  induction cs generalizing m taken with
  | nil =>
    refine ⟨(opens_nothing f h).congr fun slot => ?_, ?_, ?_⟩
    · simp [Wanted]
    · simp [takeAll]
    · exact (if_neg (by simp [Wanted])).symm
  | cons c cs ih =>
    have hone : Takes f [c] m (takeOne f c taken m).2 taken (takeOne f c taken m).1 :=
      takes_one h c
    exact hone.trans (ih hone.opens.sorted)

end Takes

/-! ## Twins -/

section Twins

variable {W : Likeness World} {P : Cell → Cell → Prop} {level : Nat} {homes homes' : List Home}
  {f f' : Frame} {m m' after after' : Machine World} {wanted : Nat → Prop}

/-- The cells that were opened for the same place stand for each other as well. -/
def WithOpened (P : Cell → Cell → Prop) (m after m' after' : Machine World) (c c' : Cell) : Prop :=
  P c c' ∨ ∃ p, m.openCells.find? p = none ∧ m'.openCells.find? p = none ∧
    after.openCells.find? p = some c ∧ after'.openCells.find? p = some c'

/-- Where the same slots are wanted, twins are left behind. -/
theorem Machine.Twins.opens (h : m.Twins W P m') (hf : f.Abreast P level homes homes' f')
    (ho : Opens f wanted m after) (ho' : Opens f' wanted m' after') :
    after.Twins W (WithOpened P m after m' after') after' := by
  have hnone : ∀ p, m.openCells.find? p = none ↔ m'.openCells.find? p = none := fun p => by
    have hp := h.openCells.find p
    generalize m.openCells.find? p = x, m'.openCells.find? p = y at hp
    cases hp <;> simp
  have hwiden : ∀ {c c'}, P c c' → WithOpened P m after m' after' c c' := .inl
  have hfresh : ∀ {p c}, m.openCells.find? p = none → after.openCells.find? p = some c →
      m.store.cells.size ≤ c.index ∧ c.index < after.store.cells.size := fun hp hc =>
    have hspec := ho.fresh _ _ hp hc
    ⟨hspec.2.2.1, hspec.2.2.2.1⟩
  have hfresh' : ∀ {p c}, m'.openCells.find? p = none → after'.openCells.find? p = some c →
      m'.store.cells.size ≤ c.index ∧ c.index < after'.store.cells.size := fun hp hc =>
    have hspec := ho'.fresh _ _ hp hc
    ⟨hspec.2.2.1, hspec.2.2.2.1⟩
  have hstore : after.store.Twins (WithOpened P m after m' after') after'.store := by
    refine ⟨by rw [ho.nextId, ho'.nextId, h.store.nextId], ?_, ?_, ?_⟩
    · rintro c d c' d' (hc | ⟨p, hp, hp', hpc, hpc'⟩) (hd | ⟨q, hq, hq', hqd, hqd'⟩)
      · exact h.store.oneToOne hc hd
      · have hlt := h.store.cells hc
        exact iff_of_false (fun heq => Nat.not_lt.mpr (hfresh hq hqd).1 (heq ▸ hlt.1))
          fun heq => Nat.not_lt.mpr (hfresh' hq' hqd').1 (heq ▸ hlt.2)
      · have hlt := h.store.cells hd
        exact iff_of_false (fun heq => Nat.not_lt.mpr (hfresh hp hpc).1 (heq ▸ hlt.1))
          fun heq => Nat.not_lt.mpr (hfresh' hp' hpc').1 (heq ▸ hlt.2)
      · constructor
        · rintro rfl
          obtain rfl := ho.apart p q c hp hpc hq hqd
          exact Option.some.inj (hpc'.symm.trans hqd')
        · rintro rfl
          obtain rfl := ho'.apart p q c' hp' hpc' hq' hqd'
          exact Option.some.inj (hpc.symm.trans hqd)
    · rintro c c' (hc | ⟨p, hp, hp', hpc, hpc'⟩)
      · have hlt := h.store.cells hc
        exact ⟨Nat.lt_of_lt_of_le hlt.1 ho.size, Nat.lt_of_lt_of_le hlt.2 ho'.size⟩
      · exact ⟨(hfresh hp hpc).2, (hfresh' hp' hpc').2⟩
    · rintro c c' (hc | ⟨p, hp, hp', hpc, hpc'⟩)
      · have hlt := h.store.cells hc
        rw [ho.kept c hlt.1, ho'.kept c' hlt.2]
        exact (h.store.contents hc).mono hwiden
      · rw [(ho.fresh p c hp hpc).2.2.2.2, (ho'.fresh p c' hp' hpc').2.2.2.2]
        have hslot := getElem?_of_forall₂ hf.slots p.slot
        generalize f.slots[p.slot]? = x, f'.slots[p.slot]? = y at hslot
        cases hslot with
        | some hv => exact hv.mono hwiden
        | none => exact .nil
  refine ⟨?_, ⟨ho.sorted, ho'.sorted, fun p => ?_⟩, ?_, hstore, ?_⟩
  · rw [ho.callers, ho'.callers]
    exact h.callers.imp fun _ _ hg => hg.mono hwiden
  · -- a place has an open cell if it had one before or was wanted
    have hp := h.openCells.find p
    cases hx : m.openCells.find? p with
    | some c =>
      rw [hx] at hp
      cases hy : m'.openCells.find? p with
      | none =>
        rw [hy] at hp
        cases hp
      | some c' =>
        rw [hy] at hp
        cases hp with
        | some hc =>
          rw [ho.old p c hx, ho'.old p c' hy]
          exact .some (.inl hc)
    | none =>
      have hy := (hnone p).mp hx
      cases hz : after.openCells.find? p with
      | some c =>
        obtain ⟨hdepth, hwanted, -⟩ := ho.fresh p c hx hz
        obtain ⟨c', hc'⟩ := ho'.opened p.slot hwanted
        rw [h.depth_eq, ← hdepth] at hc'
        have hc' : after'.openCells.find? p = some c' := hc'
        rw [hc']
        exact .some (.inr ⟨p, hx, hy, hz, hc'⟩)
      | none =>
        cases hz' : after'.openCells.find? p with
        | none => exact .none
        | some c' =>
          obtain ⟨hdepth, hwanted, -⟩ := ho'.fresh p c' hy hz'
          obtain ⟨c, hc⟩ := ho.opened p.slot hwanted
          rw [← h.depth_eq, ← hdepth] at hc
          exact absurd (hz.symm.trans hc) nofun
  · rw [ho.globals, ho'.globals]
    exact h.globals.mono hwiden
  · rw [ho.world, ho'.world]
    exact W.mono hwiden h.world

end Twins

end ScriptEngine
