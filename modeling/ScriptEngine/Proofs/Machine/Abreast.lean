import ScriptEngine.Machine.Run
import ScriptEngine.Proofs.Matching
set_option autoImplicit false

/-!
# Machine: two runs abreast

Two machines whose values match (`Machine.Matches`) cannot be told apart by any code: a step
leads to machines that match again, where objects that were made in this step match as well
(`Machine.Matches.step`), and so does a whole run (`Machine.Matches.ending`).

The host is asked for no more than that it does not tell such machines apart either
(`Host.IsUniform`).
-/

namespace ScriptEngine

open Machine

variable {World : Type}

/-! ## Results that are alike -/

/-- Both fail in the same way, or both succeed with results that are related. -/
inductive EndAlike {ε α β : Type} (R : α → β → Prop) : Except ε α → Except ε β → Prop where
  | ok {a : α} {b : β} (h : R a b) : EndAlike R (.ok a) (.ok b)
  | error (e : ε) : EndAlike R (.error e) (.error e)

namespace EndAlike

variable {ε α β γ δ : Type} {R S : α → β → Prop} {T : γ → δ → Prop}

theorem imp {x : Except ε α} {y : Except ε β} (h : EndAlike R x y)
    (k : ∀ a b, R a b → S a b) : EndAlike S x y := by
  cases h with
  | ok h => exact .ok (k _ _ h)
  | error e => exact .error e

theorem bind {x : Except ε α} {y : Except ε β} (h : EndAlike R x y) {k : α → Except ε γ}
    {l : β → Except ε δ} (hkl : ∀ a b, R a b → EndAlike T (k a) (l b)) :
    EndAlike T (x >>= k) (y >>= l) := by
  cases h with
  | ok h => exact hkl _ _ h
  | error e => exact .error e

theorem map {x : Except ε α} {y : Except ε β} (h : EndAlike R x y) {k : α → γ} {l : β → δ}
    (hkl : ∀ a b, R a b → T (k a) (l b)) : EndAlike T (x.map k) (y.map l) := by
  cases h with
  | ok h => exact .ok (hkl _ _ h)
  | error e => exact .error e

end EndAlike

/-! ## More objects -/

namespace Matching

variable {M N P : Matching}

/-- In `N` more objects match than in `M`. -/
structure Widens (M N : Matching) : Prop extends M.Grows N where
  sameLines : N.lines = M.lines

theorem Widens.refl (M : Matching) : M.Widens M := ⟨.refl M, rfl⟩

theorem Widens.trans (h : M.Widens N) (k : N.Widens P) : M.Widens P :=
  ⟨h.toGrows.trans k.toGrows, k.sameLines.trans h.sameLines⟩

/-- The objects `a` and `b` match as well. -/
def withIds (M : Matching) (a b : Identity) : Matching :=
  { M with ids := fun x y => M.ids x y ∨ (x = a ∧ y = b) }

/-- The cells `c` and `d` match as well. -/
def withCells (M : Matching) (c d : Cell) : Matching :=
  { M with cells := fun x y => M.cells x y ∨ (x = c ∧ y = d) }

theorem widens_withIds (M : Matching) (a b : Identity) : M.Widens (M.withIds a b) :=
  ⟨⟨.inl, id, id⟩, rfl⟩

theorem widens_withCells (M : Matching) (c d : Cell) : M.Widens (M.withCells c d) :=
  ⟨⟨id, .inl, id⟩, rfl⟩

end Matching

/-! ## Stores -/

/-- Objects that match exist, cells that match hold values that match, and objects and cells
are paired off. -/
structure Store.Matches (M : Matching) (s s' : Store) : Prop where
  oneToOne : M.IsOneToOne
  ids : ∀ {a b}, M.ids a b → a < s.nextId ∧ b < s'.nextId
  cells : ∀ {c d}, M.cells c d → c.index < s.cells.size ∧ d.index < s'.cells.size
  contents : ∀ {c d}, M.cells c d → (s.read c).Matches M (s'.read d)

namespace Store.Matches

variable {M N : Matching} {s s' : Store} {v w : Value} {c d : Cell}

theorem write (h : s.Matches M s') (hcd : M.cells c d) (hvw : v.Matches M w) :
    (s.write c v).Matches M (s'.write d w) where
  oneToOne := h.oneToOne
  ids := h.ids
  cells hxy := by
    simp only [Store.write, Array.size_setIfInBounds]
    exact h.cells hxy
  contents {x y} hxy := by
    have hiff := h.oneToOne.cells hcd hxy
    by_cases hx : c = x
    · obtain rfl := hx
      obtain rfl := hiff.mp rfl
      rw [read_write _ (h.cells hcd).1, read_write _ (h.cells hcd).2]
      exact hvw
    · rw [read_write_of_ne _ hx, read_write_of_ne _ (mt hiff.mpr hx)]
      exact h.contents hxy

/-- Objects that are made at the same moment match. -/
theorem freshId (h : s.Matches M s') :
    s.freshId.2.Matches (M.withIds s.nextId s'.nextId) s'.freshId.2 where
  oneToOne := by
    refine ⟨?_, h.oneToOne.cells⟩
    rintro a b a' b' (hab | ⟨rfl, rfl⟩) (hab' | ⟨rfl, rfl⟩)
    · exact h.oneToOne.ids hab hab'
    · exact iff_of_false (Nat.ne_of_lt (h.ids hab).1) (Nat.ne_of_lt (h.ids hab).2)
    · exact iff_of_false (Nat.ne_of_gt (h.ids hab').1) (Nat.ne_of_gt (h.ids hab').2)
    · exact iff_of_true rfl rfl
  ids := by
    rintro a b (hab | ⟨rfl, rfl⟩)
    · exact ⟨Nat.lt_succ_of_lt (h.ids hab).1, Nat.lt_succ_of_lt (h.ids hab).2⟩
    · exact ⟨Nat.lt_succ_self _, Nat.lt_succ_self _⟩
  cells := h.cells
  contents hcd := (h.contents hcd).mono (M.widens_withIds _ _).toGrows

/-- Cells that are made at the same moment match. -/
theorem alloc (h : s.Matches M s') (hvw : v.Matches M w) :
    (s.alloc v).2.Matches (M.withCells (s.alloc v).1 (s'.alloc w).1) (s'.alloc w).2 where
  oneToOne := by
    refine ⟨h.oneToOne.ids, ?_⟩
    have hne : ∀ {c d}, M.cells c d → c ≠ (s.alloc v).1 ∧ d ≠ (s'.alloc w).1 := fun hcd =>
      ⟨fun heq => Nat.ne_of_lt (h.cells hcd).1 (congrArg Cell.index heq),
        fun heq => Nat.ne_of_lt (h.cells hcd).2 (congrArg Cell.index heq)⟩
    rintro c d c' d' (hcd | ⟨rfl, rfl⟩) (hcd' | ⟨rfl, rfl⟩)
    · exact h.oneToOne.cells hcd hcd'
    · exact iff_of_false (hne hcd).1 (hne hcd).2
    · exact iff_of_false (hne hcd').1.symm (hne hcd').2.symm
    · exact iff_of_true rfl rfl
  ids := h.ids
  cells := by
    rintro c d (hcd | ⟨rfl, rfl⟩)
    · simp only [Store.alloc, Array.size_push]
      exact ⟨Nat.lt_succ_of_lt (h.cells hcd).1, Nat.lt_succ_of_lt (h.cells hcd).2⟩
    · simp [Store.alloc]
  contents := by
    rintro c d (hcd | ⟨rfl, rfl⟩)
    · rw [read_alloc_of_lt _ (h.cells hcd).1, read_alloc_of_lt _ (h.cells hcd).2]
      exact (h.contents hcd).mono (M.widens_withCells _ _).toGrows
    · rw [read_alloc, read_alloc]
      exact hvw.mono (M.widens_withCells _ _).toGrows

end Store.Matches

/-! ## Globals and open cells -/

/-- The same names are defined, with values that match. -/
def Globals.Matches (M : Matching) (g g' : Globals) : Prop :=
  ∀ name, Option.Rel (Value.Matches M) (g.get? name) (g'.get? name)

theorem Globals.Matches.mono {M N : Matching} {g g' : Globals} (h : g.Matches M g')
    (hMN : M.Grows N) : g.Matches N g' :=
  fun name => rel_imp (h name) fun _ _ hvw => hvw.mono hMN

theorem Globals.Matches.define {M : Matching} {g g' : Globals} (h : g.Matches M g')
    (name : String) {v w : Value} (hvw : v.Matches M w) :
    (g.define name v).Matches M (g'.define name w) := fun other => by
  by_cases hname : name = other
  · obtain rfl := hname
    rw [get_define_self, get_define_self]
    exact .some hvw
  · rw [get_define_of_ne hname, get_define_of_ne hname]
    exact h other

/-- Entries for the same place. -/
structure OpenCell.Matches (M : Matching) (e e' : OpenCell) : Prop where
  place : e'.place = e.place
  cell : M.cells e.cell e'.cell

namespace OpenCells

variable {M N : Matching} {o o' : OpenCells}

/-- The same places have open cells, which match. -/
abbrev Matches (M : Matching) (o o' : OpenCells) : Prop :=
  List.Forall₂ (OpenCell.Matches M) o.toList o'.toList

theorem Matches.place_eq (h : o.Matches M o') (i : Nat) :
    o'[i]?.map OpenCell.place = o[i]?.map OpenCell.place := by
  have hrel := getElem?_of_forall₂ h i
  generalize o[i]? = x, o'[i]? = y at hrel
  cases hrel with
  | some he => exact congrArg some he.place
  | none => rfl

theorem Matches.bisect_eq (h : o.Matches M o') (p : SlotPlace) (low high : Nat) :
    o'.bisect p low high = o.bisect p low high := by
  have hentry := h.place_eq
  fun_induction bisect o p low high with
  | case1 low high hlt middle e he hbefore ih =>
    have hplace := hentry middle
    rw [he] at hplace
    obtain ⟨e', he', heq⟩ := Option.map_eq_some_iff.mp hplace
    rw [bisect, dif_pos hlt]
    dsimp only
    rw [he']
    dsimp only
    rw [heq, if_pos hbefore, ih]
  | case2 low high hlt middle e he hbefore ih =>
    have hplace := hentry middle
    rw [he] at hplace
    obtain ⟨e', he', heq⟩ := Option.map_eq_some_iff.mp hplace
    rw [bisect, dif_pos hlt]
    dsimp only
    rw [he']
    dsimp only
    rw [heq, if_neg hbefore, ih]
  | case3 low high hlt middle hnone ih =>
    have hplace := hentry middle
    rw [hnone] at hplace
    rw [bisect, dif_pos hlt]
    dsimp only
    rw [Option.map_eq_none_iff.mp hplace]
    dsimp only
    rw [ih]
  | case4 low high hge =>
    rw [bisect, dif_neg hge]

theorem Matches.lowerBound_eq (h : o.Matches M o') (p : SlotPlace) :
    o'.lowerBound p = o.lowerBound p := by
  unfold lowerBound
  rw [h.bisect_eq, size_eq_of_forall₂ h]

theorem Matches.locate_eq (h : o.Matches M o') (p : SlotPlace) : o'.locate p = o.locate p := by
  unfold locate
  rw [h.lowerBound_eq]
  dsimp only
  have hrel := getElem?_of_forall₂ h (o.lowerBound p)
  generalize o[o.lowerBound p]? = x, o'[o.lowerBound p]? = y at hrel
  cases hrel with
  | some he =>
    dsimp only
    rw [he.place]
  | none => rfl

theorem Matches.find (h : o.Matches M o') (p : SlotPlace) :
    Option.Rel M.cells (o.find? p) (o'.find? p) := by
  unfold find?
  rw [h.locate_eq]
  split
  · next i _ =>
    have hrel := getElem?_of_forall₂ h i
    generalize o[i]? = x, o'[i]? = y at hrel
    cases hrel with
    | some he => exact .some he.cell
    | none => exact .none
  · exact .none

theorem Matches.insert (h : o.Matches M o') (p : SlotPlace) {c d : Cell} (hcd : M.cells c d) :
    (o.insert p c).Matches M (o'.insert p d) := by
  unfold OpenCells.insert
  rw [h.locate_eq]
  split
  · exact h
  · next i _ =>
    have hlist : ∀ (o : OpenCells) (e : OpenCell),
        (o.insertIdxIfInBounds i e).toList = o.toList.insertIdx i e := fun o e =>
      congrArg Array.toList (List.insertIdxIfInBounds_toArray o.toList i e)
    unfold Matches
    rw [hlist, hlist]
    exact forall₂_insertIdx (x := ⟨p, c⟩) (y := ⟨p, d⟩) h ⟨rfl, hcd⟩ i

theorem Matches.erase (h : o.Matches M o') (p : SlotPlace) :
    (o.erase p).Matches M (o'.erase p) := by
  unfold OpenCells.erase
  rw [h.locate_eq]
  split
  · unfold Matches
    rw [Array.toList_eraseIdxIfInBounds, Array.toList_eraseIdxIfInBounds]
    exact forall₂_eraseIdx h _
  · exact h

theorem Matches.below (h : o.Matches M o') (depth : Nat) :
    (o.below depth).Matches M (o'.below depth) := by
  unfold OpenCells.below
  rw [h.lowerBound_eq]
  exact forall₂_extract h _ _

theorem Matches.mono (h : o.Matches M o') (hMN : M.Grows N) : o.Matches N o' :=
  h.imp fun _ _ he => ⟨he.place, hMN.cells he.cell⟩

end OpenCells

/-! ## Machines -/

/-- The frames are at the same place of functions that match. -/
structure Frame.Matches (M : Matching) (f f' : Frame) : Prop where
  function : f.function.Matches M f'.function
  cells : List.Forall₂ M.cells f.cells.toList f'.cells.toList
  ip : f'.ip = f.ip
  slots : List.Forall₂ (Value.Matches M) f.slots.toList f'.slots.toList

theorem Frame.Matches.mono {M N : Matching} {f f' : Frame} (h : f.Matches M f')
    (hMN : M.Grows N) : f.Matches N f' where
  function := Value.Matches.mono h.function hMN
  cells := h.cells.imp fun _ _ => hMN.cells
  ip := h.ip
  slots := h.slots.imp fun _ _ hvw => hvw.mono hMN

/-- The machines are the same but for what stands for each other.  Of their surroundings it
is known that they are related by `W`. -/
structure Machine.Matches (M : Matching) (W : World → World → Prop) (m m' : Machine World) :
    Prop where
  callers : List.Forall₂ (Frame.Matches M) m.callers m'.callers
  openCells : m.openCells.Matches M m'.openCells
  globals : m.globals.Matches M m'.globals
  store : m.store.Matches M m'.store
  world : W m.world m'.world

/-- A frame with a machine, and another one with another. -/
def GoOnAlike (M : Matching) (W : World → World → Prop) (p p' : Frame × Machine World) : Prop :=
  ∃ N, M.Widens N ∧ p.1.Matches N p'.1 ∧ p.2.Matches N W p'.2

section Machines

variable {M N : Matching} {W : World → World → Prop} {m m' : Machine World} {f f' : Frame}
  {v w : Value}

theorem Machine.Matches.depth_eq (h : m.Matches M W m') : m'.depth = m.depth :=
  h.callers.length_eq.symm

/-- The store and the open cells are those of the matching `N`, which is wider. -/
theorem Machine.Matches.withStore (h : m.Matches M W m') (hMN : M.Widens N) {s s' : Store}
    (hs : s.Matches N s') {o o' : OpenCells} (ho : o.Matches N o') :
    { m with store := s, openCells := o }.Matches N W { m' with store := s', openCells := o' } where
  callers := h.callers.imp fun _ _ hf => hf.mono hMN.toGrows
  openCells := ho
  globals := h.globals.mono hMN.toGrows
  store := hs
  world := h.world

/-! ## Within a frame -/

namespace Frame.Matches

theorem size_eq (h : f.Matches M f') : f'.slots.size = f.slots.size :=
  (size_eq_of_forall₂ h.slots).symm

/-- Attempts that break off at the same place are alike. -/
theorem fail {α β : Type} {R : α → β → Prop} (h : f.Matches M f') (fault : Fault) :
    EndAlike R (f.fail fault : Attempt α) (f'.fail fault : Attempt β) := by
  unfold Frame.fail
  rw [h.ip]
  exact .error _

theorem expect {α β : Type} {R : α → β → Prop} (h : f.Matches M f') (fault : Fault)
    {x : Option α} {y : Option β} (hxy : Option.Rel R x y) :
    EndAlike R (f.expect fault x) (f'.expect fault y) := by
  cases hxy with
  | some hab => exact .ok hab
  | none => exact h.fail fault

theorem goTo (h : f.Matches M f') (ip : Nat) :
    { f with ip }.Matches M { f' with ip } where
  function := h.function
  cells := h.cells
  ip := rfl
  slots := h.slots

theorem withSlots (h : f.Matches M f') {slots slots' : Array Value}
    (hslots : List.Forall₂ (Value.Matches M) slots.toList slots'.toList) :
    { f with slots }.Matches M { f' with slots := slots' } where
  function := h.function
  cells := h.cells
  ip := h.ip
  slots := hslots

theorem push (h : f.Matches M f') (hvw : v.Matches M w) : (f.push v).Matches M (f'.push w) :=
  h.withSlots (forall₂_push h.slots hvw)

theorem fetch (h : f.Matches M f') :
    EndAlike (fun p p' => p'.1 = p.1 ∧ p.2.Matches M p'.2) f.fetch f'.fetch := by
  have hbyte : Option.Rel Eq f.chunk.code[f.ip]? f'.chunk.code[f'.ip]? := by
    rw [h.ip, chunk, chunk, h.function.code]
    cases f'.function.chunk.code[f.ip]? with
    | some byte => exact .some rfl
    | none => exact .none
  unfold Frame.fetch
  rw [h.ip] at hbyte ⊢
  refine (h.expect _ hbyte).bind ?_
  rintro byte _ rfl
  exact .ok ⟨rfl, h.goTo _⟩

theorem fetchConstant (h : f.Matches M f') :
    EndAlike (fun p p' => p.1.Matches M p'.1 ∧ p.2.Matches M p'.2) f.fetchConstant
      f'.fetchConstant := by
  refine h.fetch.bind ?_
  rintro ⟨index, g⟩ ⟨_, g'⟩ ⟨rfl, hg⟩
  refine (hg.expect _ (hg.function.constants _)).bind fun v w hvw => ?_
  exact .ok ⟨hvw, hg⟩

theorem fetchName (h : f.Matches M f') :
    EndAlike (fun p p' => p'.1 = p.1 ∧ p.2.Matches M p'.2) f.fetchName f'.fetchName := by
  refine h.fetchConstant.bind ?_
  rintro ⟨v, g⟩ ⟨w, g'⟩ ⟨hvw, hg⟩
  have htype := hvw.typeName_eq
  cases hvw with
  | string text => exact .ok ⟨rfl, hg⟩
  | _ =>
    dsimp only
    rw [htype]
    exact hg.fail _

theorem fetchFunction (h : f.Matches M f') :
    EndAlike (fun p p' => p.1.Matches M p'.1 ∧ p.2.Matches M p'.2) f.fetchFunction
      f'.fetchFunction := by
  refine h.fetchConstant.bind ?_
  rintro ⟨v, g⟩ ⟨w, g'⟩ ⟨hvw, hg⟩
  have htype := hvw.typeName_eq
  cases hvw with
  | function id name arity captureCount code lines size constants =>
    exact .ok ⟨.function id name arity captureCount code lines size constants, hg⟩
  | _ =>
    dsimp only
    rw [htype]
    exact hg.fail _

theorem peek (h : f.Matches M f') : EndAlike (Value.Matches M) f.peek f'.peek :=
  h.expect _ (back?_of_forall₂ h.slots)

theorem pop (h : f.Matches M f') :
    EndAlike (fun p p' => p.1.Matches M p'.1 ∧ p.2.Matches M p'.2) f.pop f'.pop := by
  refine h.peek.bind fun v w hvw => .ok ⟨hvw, h.withSlots ?_⟩
  rw [Array.toList_pop, Array.toList_pop]
  exact forall₂_dropLast h.slots

theorem popTwo (h : f.Matches M f') :
    EndAlike (fun p p' => p.1.Matches M p'.1 ∧ p.2.1.Matches M p'.2.1 ∧
      p.2.2.Matches M p'.2.2) f.popTwo f'.popTwo := by
  refine h.pop.bind ?_
  rintro ⟨v, g⟩ ⟨w, g'⟩ ⟨hvw, hg⟩
  refine hg.pop.bind ?_
  rintro ⟨v', k⟩ ⟨w', k'⟩ ⟨hvw', hk⟩
  exact .ok ⟨hvw', hvw, hk⟩

theorem popTwoNumbers (h : f.Matches M f') :
    EndAlike (fun p p' => p'.1 = p.1 ∧ p'.2.1 = p.2.1 ∧ p.2.2.Matches M p'.2.2)
      f.popTwoNumbers f'.popTwoNumbers := by
  refine h.popTwo.bind ?_
  rintro ⟨x, y, g⟩ ⟨x', y', g'⟩ ⟨hx, hy, hg⟩
  cases hx with
  | number _ =>
    cases hy with
    | number _ => exact .ok ⟨rfl, rfl, hg⟩
    | _ => exact hg.fail _
  | _ => exact hg.fail _

theorem slot (h : f.Matches M f') (i : Nat) :
    EndAlike (Value.Matches M) (f.slot i) (f'.slot i) :=
  h.expect _ (getElem?_of_forall₂ h.slots i)

theorem setSlot (h : f.Matches M f') (i : Nat) (hvw : v.Matches M w) :
    EndAlike (Frame.Matches M) (f.setSlot i v) (f'.setSlot i w) := by
  unfold Frame.setSlot
  rw [h.size_eq]
  split
  · refine .ok (h.withSlots ?_)
    rw [Array.toList_setIfInBounds, Array.toList_setIfInBounds]
    exact forall₂_set h.slots hvw i
  · exact h.fail _

theorem capturedCell (h : f.Matches M f') (i : Nat) :
    EndAlike M.cells (f.capturedCell i) (f'.capturedCell i) :=
  h.expect _ (getElem?_of_forall₂ h.cells i)

theorem jumpAhead (h : f.Matches M f') (distance : Nat) :
    (f.jumpAhead distance).Matches M (f'.jumpAhead distance) := by
  unfold Frame.jumpAhead
  rw [h.ip]
  exact h.goTo _

theorem jumpBack (h : f.Matches M f') (distance : Nat) :
    EndAlike (Frame.Matches M) (f.jumpBack distance) (f'.jumpBack distance) := by
  unfold Frame.jumpBack
  rw [h.ip]
  split
  · exact .ok (h.goTo _)
  · exact h.fail _

/-- What a value is good for is the same for values that match. -/
theorem expectEq {α : Type} (h : f.Matches M f') (fault : Fault) {x y : Option α} (hxy : x = y) :
    EndAlike Eq (f.expect fault x) (f'.expect fault y) := by
  subst hxy
  refine h.expect fault ?_
  cases x with
  | some a => exact .some rfl
  | none => exact .none

theorem condition (h : f.Matches M f') : EndAlike Eq f.condition f'.condition := by
  refine h.peek.bind fun v w hvw => ?_
  rw [hvw.typeName_eq]
  exact h.expectEq _ hvw.truth_eq

end Frame.Matches

/-! ## Operators -/

theorem sum_matches {x y x' y' : Value} (hx : x.Matches M x') (hy : y.Matches M y') :
    Option.Rel (Value.Matches M) (sum? x y) (sum? x' y') := by
  cases hx with
  | number a =>
    cases hy with
    | number b => exact .some (.number _)
    | _ => exact .none
  | string s =>
    cases hy with
    | string t => exact .some (.string _)
    | _ => exact .none
  | _ => exact .none

namespace Frame.Matches

theorem add (h : f.Matches M f') :
    EndAlike (Frame.Matches M) (Machine.add f) (Machine.add f') := by
  refine h.popTwo.bind ?_
  rintro ⟨x, y, g⟩ ⟨x', y', g'⟩ ⟨hx, hy, hg⟩
  exact (hg.expect _ (sum_matches hx hy)).bind fun v w hvw => .ok (hg.push hvw)

theorem arithmetic (h : f.Matches M f') (op : Float → Float → Float) :
    EndAlike (Frame.Matches M) (Machine.arithmetic op f) (Machine.arithmetic op f') := by
  refine h.popTwoNumbers.bind ?_
  rintro ⟨x, y, g⟩ ⟨_, _, g'⟩ ⟨rfl, rfl, hg⟩
  exact .ok (hg.push (.number _))

theorem comparison (h : f.Matches M f') (op : Float → Float → Bool) :
    EndAlike (Frame.Matches M) (Machine.comparison op f) (Machine.comparison op f') := by
  refine h.popTwoNumbers.bind ?_
  rintro ⟨x, y, g⟩ ⟨_, _, g'⟩ ⟨rfl, rfl, hg⟩
  exact .ok (hg.push (.boolean _))

theorem equality (h : f.Matches M f') (hM : M.IsOneToOne) :
    EndAlike (Frame.Matches M) (Machine.equality f) (Machine.equality f') := by
  refine h.popTwo.bind ?_
  rintro ⟨x, y, g⟩ ⟨x', y', g'⟩ ⟨hx, hy, hg⟩
  have hsame : (x == y) = (x' == y') := Value.Matches.same_eq hM hx hy
  dsimp only
  rw [hsame]
  exact .ok (hg.push (.boolean _))

theorem negation (h : f.Matches M f') :
    EndAlike (Frame.Matches M) (Machine.negation f) (Machine.negation f') := by
  refine h.pop.bind ?_
  rintro ⟨x, g⟩ ⟨x', g'⟩ ⟨hx, hg⟩
  refine (hg.expectEq _ hx.truth_eq).bind ?_
  rintro b _ rfl
  exact .ok (hg.push (.boolean _))

theorem opposite (h : f.Matches M f') :
    EndAlike (Frame.Matches M) (Machine.opposite f) (Machine.opposite f') := by
  refine h.pop.bind ?_
  rintro ⟨x, g⟩ ⟨x', g'⟩ ⟨hx, hg⟩
  refine (hg.expectEq _ hx.number_eq).bind ?_
  rintro a _ rfl
  exact .ok (hg.push (.number _))

/-- Instructions that concern nothing but the frame. -/
theorem runLocal (h : f.Matches M f') (hM : M.IsOneToOne) (op : Opcode) :
    EndAlike (Frame.Matches M) (Machine.runLocal op f) (Machine.runLocal op f') := by
  cases op with
  | constant =>
    refine h.fetchConstant.bind ?_
    rintro ⟨v, g⟩ ⟨w, g'⟩ ⟨hvw, hg⟩
    exact .ok (hg.push hvw)
  | nil => exact .ok (h.push .nil)
  | true => exact .ok (h.push (.boolean true))
  | false => exact .ok (h.push (.boolean false))
  | pop =>
    refine h.pop.bind ?_
    rintro ⟨v, g⟩ ⟨w, g'⟩ ⟨-, hg⟩
    exact .ok hg
  | getLocal =>
    refine h.fetch.bind ?_
    rintro ⟨_, g⟩ ⟨slot, g'⟩ ⟨rfl, hg⟩
    exact (hg.slot slot.toNat).bind fun v w hvw => .ok (hg.push hvw)
  | setLocal =>
    refine h.fetch.bind ?_
    rintro ⟨_, g⟩ ⟨slot, g'⟩ ⟨rfl, hg⟩
    exact hg.peek.bind fun v w hvw => hg.setSlot slot.toNat hvw
  | equal => exact h.equality hM
  | greater => exact h.comparison fun x y => y < x
  | less => exact h.comparison fun x y => x < y
  | add => exact h.add
  | subtract => exact h.arithmetic (· - ·)
  | multiply => exact h.arithmetic (· * ·)
  | divide => exact h.arithmetic (· / ·)
  | not => exact h.negation
  | negate => exact h.opposite
  | jump =>
    refine h.fetch.bind ?_
    rintro ⟨_, g⟩ ⟨distance, g'⟩ ⟨rfl, hg⟩
    exact .ok (hg.jumpAhead distance.toNat)
  | jumpIfFalse =>
    refine h.fetch.bind ?_
    rintro ⟨_, g⟩ ⟨distance, g'⟩ ⟨rfl, hg⟩
    refine hg.condition.bind ?_
    rintro b _ rfl
    cases b with
    | true => exact .ok hg
    | false => exact .ok (hg.jumpAhead distance.toNat)
  | loop =>
    refine h.fetch.bind ?_
    rintro ⟨_, g⟩ ⟨distance, g'⟩ ⟨rfl, hg⟩
    exact hg.jumpBack distance.toNat
  | _ => exact .ok h

end Frame.Matches

/-! ## Variables -/

namespace Machine.Matches

theorem goOn (h : m.Matches M W m') (hf : f.Matches M f') : GoOnAlike M W (f, m) (f', m') :=
  ⟨M, .refl M, hf, h⟩

theorem loadGlobal (h : m.Matches M W m') (hf : f.Matches M f') :
    EndAlike (GoOnAlike M W) (m.loadGlobal f) (m'.loadGlobal f') := by
  refine hf.fetchName.bind ?_
  rintro ⟨_, g⟩ ⟨name, g'⟩ ⟨rfl, hg⟩
  exact (hg.expect _ (h.globals name)).bind fun v w hvw => .ok (h.goOn (hg.push hvw))

theorem introduceGlobal (h : m.Matches M W m') (hf : f.Matches M f') :
    EndAlike (GoOnAlike M W) (m.introduceGlobal f) (m'.introduceGlobal f') := by
  refine hf.fetchName.bind ?_
  rintro ⟨_, g⟩ ⟨name, g'⟩ ⟨rfl, hg⟩
  refine hg.pop.bind ?_
  rintro ⟨v, k⟩ ⟨w, k'⟩ ⟨hvw, hk⟩
  exact .ok (goOn { h with globals := h.globals.define name hvw } hk)

theorem storeGlobal (h : m.Matches M W m') (hf : f.Matches M f') :
    EndAlike (GoOnAlike M W) (m.storeGlobal f) (m'.storeGlobal f') := by
  refine hf.fetchName.bind ?_
  rintro ⟨_, g⟩ ⟨name, g'⟩ ⟨rfl, hg⟩
  refine hg.peek.bind fun v w hvw => ?_
  have hassign : Option.Rel (Globals.Matches M) (m.globals.assign? name v)
      (m'.globals.assign? name w) := by
    have hname := h.globals name
    unfold Globals.assign?
    generalize m.globals.get? name = x, m'.globals.get? name = y at hname
    cases hname with
    | some _ => exact .some (h.globals.define name hvw)
    | none => exact .none
  exact (hg.expect _ hassign).bind fun gs gs' hgs => .ok (goOn { h with globals := hgs } hg)

theorem loadUpvalue (h : m.Matches M W m') (hf : f.Matches M f') :
    EndAlike (GoOnAlike M W) (m.loadUpvalue f) (m'.loadUpvalue f') := by
  refine hf.fetch.bind ?_
  rintro ⟨_, g⟩ ⟨index, g'⟩ ⟨rfl, hg⟩
  exact (hg.capturedCell _).bind fun c d hcd => .ok (h.goOn (hg.push (h.store.contents hcd)))

theorem storeUpvalue (h : m.Matches M W m') (hf : f.Matches M f') :
    EndAlike (GoOnAlike M W) (m.storeUpvalue f) (m'.storeUpvalue f') := by
  refine hf.fetch.bind ?_
  rintro ⟨_, g⟩ ⟨index, g'⟩ ⟨rfl, hg⟩
  refine hg.peek.bind fun v w hvw => (hg.capturedCell _).bind fun c d hcd => ?_
  exact .ok (goOn { h with store := h.store.write hcd hvw } hg)

theorem retireUpvalue (h : m.Matches M W m') (hf : f.Matches M f') :
    EndAlike (GoOnAlike M W) (m.retireUpvalue f) (m'.retireUpvalue f') := by
  refine hf.pop.bind ?_
  rintro ⟨v, g⟩ ⟨w, g'⟩ ⟨-, hg⟩
  refine .ok (goOn ?_ hg)
  rw [h.depth_eq, hg.size_eq]
  exact { h with openCells := h.openCells.erase _ }

end Machine.Matches

/-! ## Closures -/

/-- Cells that match have been taken. -/
structure Machine.Taken.Matches (M : Matching) (t t' : Taken) : Prop where
  cells : List.Forall₂ M.cells t.cells.toList t'.cells.toList
  own : Option.Rel M.cells t.own t'.own

/-- What cells have been taken, with a frame and a machine, and the same on the other side. -/
def TakeAlike (M : Matching) (W : World → World → Prop)
    (p p' : Taken × Frame × Machine World) : Prop :=
  ∃ N, M.Widens N ∧ p.1.Matches N p'.1 ∧ p.2.1.Matches N p'.2.1 ∧ p.2.2.Matches N W p'.2.2

theorem TakeAlike.of_widens {p p' : Taken × Frame × Machine World} (hMN : M.Widens N)
    (h : TakeAlike N W p p') : TakeAlike M W p p' := by
  obtain ⟨P, hNP, hrest⟩ := h
  exact ⟨P, hMN.trans hNP, hrest⟩

theorem Machine.Taken.Matches.mono {t t' : Taken} (h : t.Matches M t') (hMN : M.Grows N) :
    t.Matches N t' where
  cells := h.cells.imp fun _ _ => hMN.cells
  own := rel_imp h.own fun _ _ => hMN.cells

theorem Machine.Taken.Matches.push {t t' : Taken} (h : t.Matches M t') {c d : Cell}
    (hcd : M.cells c d) :
    { t with cells := t.cells.push c }.Matches M { t' with cells := t'.cells.push d } where
  cells := forall₂_push h.cells hcd
  own := h.own

namespace Machine.Matches

/-- The same slot has an open cell on both sides, or a new cell is made on both. -/
theorem cellFor (h : m.Matches M W m') (slot : Nat) (hvw : v.Matches M w) :
    ∃ N, M.Widens N ∧ N.cells (m.cellFor slot v).1 (m'.cellFor slot w).1 ∧
      (m.cellFor slot v).2.Matches N W (m'.cellFor slot w).2 := by
  have hfound := h.openCells.find ⟨m.depth, slot⟩
  unfold Machine.cellFor
  dsimp only
  rw [h.depth_eq]
  generalize m.openCells.find? ⟨m.depth, slot⟩ = x,
    m'.openCells.find? ⟨m.depth, slot⟩ = y at hfound
  cases hfound with
  | some hcd => exact ⟨M, .refl M, hcd, h⟩
  | none =>
    have hwide := M.widens_withCells (m.store.alloc v).1 (m'.store.alloc w).1
    have hpair : (M.withCells (m.store.alloc v).1 (m'.store.alloc w).1).cells
        (m.store.alloc v).1 (m'.store.alloc w).1 := .inr ⟨rfl, rfl⟩
    exact ⟨_, hwide, hpair, h.withStore hwide (h.store.alloc hvw)
      ((h.openCells.mono hwide.toGrows).insert _ hpair)⟩

theorem takeCell (h : m.Matches M W m') (hf : f.Matches M f') {t t' : Taken}
    (ht : t.Matches M t') :
    EndAlike (TakeAlike M W) (m.takeCell f t) (m'.takeCell f' t') := by
  refine hf.fetch.bind ?_
  rintro ⟨_, g⟩ ⟨isLocal, g'⟩ ⟨rfl, hg⟩
  refine hg.fetch.bind ?_
  rintro ⟨_, k⟩ ⟨index, k'⟩ ⟨rfl, hk⟩
  dsimp only
  split
  · rw [hk.size_eq]
    split
    · obtain ⟨N, hMN, hcd, hm⟩ := h.cellFor index.toNat .nil
      refine .ok ⟨N, hMN, ?_, hk.mono hMN.toGrows, hm⟩
      exact ⟨((ht.mono hMN.toGrows).push hcd).cells, .some hcd⟩
    · refine (hk.slot _).bind fun v w hvw => ?_
      obtain ⟨N, hMN, hcd, hm⟩ := h.cellFor index.toNat hvw
      exact .ok ⟨N, hMN, (ht.mono hMN.toGrows).push hcd, hk.mono hMN.toGrows, hm⟩
  · exact (hk.capturedCell _).bind fun c d hcd => .ok ⟨M, .refl M, ht.push hcd, hk, h⟩

theorem takeCells {count : Nat} {M : Matching} {m m' : Machine World} {f f' : Frame}
    (h : m.Matches M W m') (hf : f.Matches M f') {t t' : Taken} (ht : t.Matches M t') :
    EndAlike (TakeAlike M W) (Machine.takeCells count m f t)
      (Machine.takeCells count m' f' t') := by
  induction count generalizing M m m' f f' t t' with
  | zero => exact .ok ⟨M, .refl M, ht, hf, h⟩
  | succ count ih =>
    refine (h.takeCell hf ht).bind ?_
    rintro ⟨t₁, f₁, m₁⟩ ⟨t₁', f₁', m₁'⟩ ⟨N, hMN, ht₁, hf₁, hm₁⟩
    exact (ih hm₁ hf₁ ht₁).imp fun _ _ => .of_widens hMN

theorem closeOver (h : m.Matches M W m') (hf : f.Matches M f') :
    EndAlike (GoOnAlike M W) (m.closeOver f) (m'.closeOver f') := by
  refine hf.fetchFunction.bind ?_
  rintro ⟨p, g⟩ ⟨p', g'⟩ ⟨hp, hg⟩
  dsimp only
  rw [hp.captureCount]
  refine (h.takeCells hg ⟨.nil, .none⟩).bind ?_
  rintro ⟨t, k, m₁⟩ ⟨t', k', m₁'⟩ ⟨N, hMN, ht, hk, hm₁⟩
  have hwide := N.widens_withIds m₁.store.nextId m₁'.store.nextId
  have hstore := hm₁.store.freshId
  have ht' := ht.mono hwide.toGrows
  have hclosure : (Value.closure ⟨m₁.store.nextId, p, t.cells⟩).Matches
      (N.withIds m₁.store.nextId m₁'.store.nextId) (.closure ⟨m₁'.store.nextId, p', t'.cells⟩) :=
    .closure (.inr ⟨rfl, rfl⟩) (Value.Matches.mono hp (hMN.trans hwide).toGrows) ht'.cells
  have hfilled := ht'.own
  refine .ok ⟨_, hMN.trans hwide, (hk.mono hwide.toGrows).push hclosure, ?_⟩
  refine hm₁.withStore hwide ?_ (hm₁.openCells.mono hwide.toGrows)
  generalize t.own = x, t'.own = y at hfilled
  cases hfilled with
  | some hcd => exact hstore.write hcd hclosure
  | none => exact hstore

end Machine.Matches

end Machines

/-! ## The host -/

/-- The replies are the same but for what stands for each other. -/
structure Reply.Matches (M : Matching) (W : World → World → Prop) (r r' : Reply World) :
    Prop where
  result : EndAlike (Value.Matches M) r.result r'.result
  store : r.store.Matches M r'.store
  world : W r.world r'.world

/-- What a native does is determined by its arguments, by the contents of cells and by as much
of the surroundings as `W` compares; the host does not care which objects are the ones that
match. -/
def Host.IsUniform (host : Host World) (W : World → World → Prop) : Prop :=
  ∀ {M : Matching} {n n' : Native} {arguments arguments' : List Value} {s s' : Store}
    {w w' : World}, Value.Matches M (.native n) (.native n') →
    List.Forall₂ (Value.Matches M) arguments arguments' → s.Matches M s' → W w w' →
    ∃ N, M.Widens N ∧
      (host.call n arguments s w).Matches N W (host.call n' arguments' s' w')

/-! ## Steps -/

/-- The outcomes of two steps are the same but for what stands for each other. -/
inductive Progress.Matches (M : Matching) (W : World → World → Prop) :
    Progress World → Progress World → Prop where
  | running {f f' : Frame} {m m' : Machine World} (frame : f.Matches M f')
      (machine : m.Matches M W m') : Matches M W (.running f m) (.running f' m')
  | finished {v w : Value} {m m' : Machine World} (value : v.Matches M w)
      (machine : m.Matches M W m') : Matches M W (.finished v m) (.finished w m')
  | failed (failure : Failure) {m m' : Machine World} (machine : m.Matches M W m') :
      Matches M W (.failed failure m) (.failed failure m')

section Steps

variable {M : Matching} {W : World → World → Prop} {host : Host World}
  {m m' : Machine World} {f f' : Frame} {v w : Value}

/-- The steps lead to machines that match, with some objects that match in addition. -/
def StepAlike (M : Matching) (W : World → World → Prop) (p p' : Progress World) : Prop :=
  ∃ N, M.Widens N ∧ p.Matches N W p'

namespace Machine.Matches

theorem failed (h : m.Matches M W m') (failure : Failure) :
    StepAlike M W (.failed failure m) (.failed failure m') :=
  ⟨M, .refl M, .failed failure h⟩

theorem conclude (h : m.Matches M W m') {x y : Attempt (Frame × Machine World)}
    (hxy : EndAlike (GoOnAlike M W) x y) :
    StepAlike M W (m.conclude x) (m'.conclude y) := by
  cases hxy with
  | ok hpair =>
    obtain ⟨N, hMN, hframe, hmachine⟩ := hpair
    exact ⟨N, hMN, .running hframe hmachine⟩
  | error failure => exact h.failed failure

theorem argumentCount_eq (hf : f.Matches M f') (base : Nat) :
    argumentCount f' base = argumentCount f base := by
  unfold argumentCount
  rw [hf.size_eq]

theorem wrongCount (h : m.Matches M W m') (hf : f.Matches M f') (base expected : Nat) :
    StepAlike M W (m.wrongCount f base expected) (m'.wrongCount f' base expected) := by
  unfold Machine.wrongCount
  rw [argumentCount_eq hf, hf.ip]
  exact h.failed _

theorem enter (h : m.Matches M W m') (hf : f.Matches M f') (base : Nat)
    {p p' : Function Value} (hp : p.Matches M p') {cells cells' : Array Cell}
    (hcells : List.Forall₂ M.cells cells.toList cells'.toList) :
    StepAlike M W (m.enter f base p cells) (m'.enter f' base p' cells') := by
  unfold Machine.enter
  rw [argumentCount_eq hf, hp.arity, hf.size_eq]
  split
  · refine ⟨M, .refl M, .running ⟨hp, hcells, rfl, forall₂_extract hf.slots _ _⟩ ?_⟩
    exact { h with callers := .cons (hf.withSlots (forall₂_extract hf.slots _ _)) h.callers }
  · exact h.wrongCount hf base _

theorem invokeNative (hhost : host.IsUniform W) (h : m.Matches M W m') (hf : f.Matches M f')
    (base : Nat) {n n' : Native} (hn : Value.Matches M (.native n) (.native n')) :
    StepAlike M W (m.invokeNative host f base n) (m'.invokeNative host f' base n') := by
  obtain ⟨N, hMN, hreply⟩ :=
    hhost hn (forall₂_extract hf.slots (base + 1) f.slots.size) h.store h.world
  have hafter := h.withStore hMN hreply.store (h.openCells.mono hMN.toGrows)
  have hworld := hreply.world
  have hresult := hreply.result
  have hframe := (hf.withSlots (forall₂_extract hf.slots 0 base)).mono hMN.toGrows
  unfold Machine.invokeNative
  dsimp only
  rw [hf.size_eq]
  generalize host.call n _ m.store m.world = r, host.call n' _ m'.store m'.world = r'
    at hafter hworld hresult ⊢
  generalize r.result = x, r'.result = y at hresult
  cases hresult with
  | ok hvw => exact ⟨N, hMN, .running (hframe.push hvw) { hafter with world := hworld }⟩
  | error message =>
    dsimp only
    rw [hf.ip]
    exact ⟨N, hMN, .failed _ { hafter with world := hworld }⟩

theorem invoke (hhost : host.IsUniform W) (h : m.Matches M W m') (hf : f.Matches M f')
    (base : Nat) (hvw : v.Matches M w) :
    StepAlike M W (m.invoke host f base v) (m'.invoke host f' base w) := by
  cases hvw with
  | closure _ function cells => exact h.enter hf base function cells
  | function id name arity captureCount code lines size constants =>
    exact h.enter hf base (.function id name arity captureCount code lines size constants) .nil
  | native id name arity =>
    unfold Machine.invoke
    dsimp only
    rw [← arity, argumentCount_eq hf]
    split
    · exact h.invokeNative hhost hf base (.native id name arity)
    · exact h.wrongCount hf base _
  | _ =>
    unfold Machine.invoke
    dsimp only
    rw [hf.ip]
    exact h.failed _

theorem call (hhost : host.IsUniform W) (h : m.Matches M W m') (hf : f.Matches M f') :
    StepAlike M W (m.call host f) (m'.call host f') := by
  have hfetch := hf.fetch
  unfold Machine.call
  generalize f.fetch = x, f'.fetch = y at hfetch
  cases hfetch with
  | error failure => exact h.failed failure
  | @ok p p' hpair =>
    obtain ⟨_, g⟩ := p
    obtain ⟨count, g'⟩ := p'
    obtain ⟨rfl, hg⟩ := hpair
    dsimp only
    rw [hg.size_eq]
    split
    · rw [hg.ip]
      exact h.failed _
    · next hsize =>
      refine h.invoke hhost hg _ ?_
      have hcallee := getElem?_of_forall₂ hg.slots (g.slots.size - (count.toNat + 1))
      generalize g.slots[g.slots.size - (count.toNat + 1)]? = x,
        g'.slots[g.slots.size - (count.toNat + 1)]? = y at hcallee
      cases hcallee with
      | some hvw => exact hvw
      | none => exact .nil

theorem closeFrame (h : m.Matches M W m') : m.closeFrame.Matches M W m'.closeFrame := by
  unfold Machine.closeFrame
  rw [isEmpty_eq_of_forall₂ h.openCells]
  split
  · exact h
  · rw [h.depth_eq]
    exact { h with openCells := h.openCells.below _ }

theorem returnFrom (h : m.Matches M W m') (hf : f.Matches M f') :
    StepAlike M W (m.returnFrom f) (m'.returnFrom f') := by
  have hpop := hf.pop
  unfold Machine.returnFrom
  generalize f.pop = x, f'.pop = y at hpop
  cases hpop with
  | error failure => exact h.failed failure
  | @ok p p' hpair =>
    obtain ⟨v, g⟩ := p
    obtain ⟨w, g'⟩ := p'
    have hclosed := h.closeFrame
    have hcallers := hclosed.callers
    dsimp only
    generalize m.closeFrame.callers = cs, m'.closeFrame.callers = cs' at hcallers
    cases hcallers with
    | nil => exact ⟨M, .refl M, .finished hpair.1 hclosed⟩
    | cons hcaller hothers =>
      exact ⟨M, .refl M, .running (hcaller.push hpair.1) { hclosed with callers := hothers }⟩

theorem carryOut (hhost : host.IsUniform W) (h : m.Matches M W m') (hf : f.Matches M f')
    (op : Opcode) : StepAlike M W (m.carryOut host f op) (m'.carryOut host f' op) := by
  have hlocal : StepAlike M W (m.conclude ((Machine.runLocal op f).map fun g => (g, m)))
      (m'.conclude ((Machine.runLocal op f').map fun g => (g, m'))) :=
    h.conclude ((hf.runLocal h.store.oneToOne op).map fun g g' hg => h.goOn hg)
  cases op with
  | getGlobal => exact h.conclude (h.loadGlobal hf)
  | defineGlobal => exact h.conclude (h.introduceGlobal hf)
  | setGlobal => exact h.conclude (h.storeGlobal hf)
  | getUpvalue => exact h.conclude (h.loadUpvalue hf)
  | setUpvalue => exact h.conclude (h.storeUpvalue hf)
  | closeUpvalue => exact h.conclude (h.retireUpvalue hf)
  | closure => exact h.conclude (h.closeOver hf)
  | call => exact h.call hhost hf
  | «return» => exact h.returnFrom hf
  | _ => exact hlocal

/-- A step on machines that match leads to machines that match. -/
theorem step (hhost : host.IsUniform W) (h : m.Matches M W m') (hf : f.Matches M f') :
    StepAlike M W (m.step host f) (m'.step host f') := by
  have hopcode : EndAlike (fun p p' => p'.1 = p.1 ∧ p.2.Matches M p'.2) (fetchOpcode f)
      (fetchOpcode f') := by
    refine hf.fetch.bind ?_
    rintro ⟨_, g⟩ ⟨byte, g'⟩ ⟨rfl, hg⟩
    rw [hf.ip]
    refine (hg.expectEq _ rfl).bind ?_
    rintro op _ rfl
    exact .ok ⟨rfl, hg⟩
  unfold Machine.step
  generalize fetchOpcode f = x, fetchOpcode f' = y at hopcode
  cases hopcode with
  | error failure => exact h.failed failure
  | @ok p p' hpair =>
    obtain ⟨op, g⟩ := p
    obtain ⟨_, g'⟩ := p'
    obtain ⟨rfl, hg⟩ := hpair
    exact h.carryOut hhost hg _

end Machine.Matches

end Steps

/-! ## Runs -/

/-- The errors are the same but for the lines in their traces. -/
structure RuntimeError.Matches (lines : Nat → Nat → Prop) (e e' : RuntimeError) : Prop where
  fault : e'.fault = e.fault
  trace : List.Forall₂ (fun t t' => t'.function = t.function ∧ lines t.line t'.line) e.trace
    e'.trace

/-- The endings are the same but for what stands for each other. -/
inductive Ending.Matches (M : Matching) (W : World → World → Prop) :
    Ending World → Ending World → Prop where
  | returned {v w : Value} {m m' : Machine World} (value : v.Matches M w)
      (machine : m.Matches M W m') : Matches M W (.returned v m) (.returned w m')
  | raised {e e' : RuntimeError} {m m' : Machine World} (error : e.Matches M.lines e')
      (machine : m.Matches M W m') : Matches M W (.raised e m) (.raised e' m')
  | unfinished {f f' : Frame} {m m' : Machine World} (frame : f.Matches M f')
      (machine : m.Matches M W m') : Matches M W (.unfinished f m) (.unfinished f' m')

theorem Ending.Matches.machine {M : Matching} {W : World → World → Prop} {e e' : Ending World}
    (h : e.Matches M W e') : e.machine.Matches M W e'.machine := by
  cases h <;> assumption

section Runs

variable {M : Matching} {W : World → World → Prop} {host : Host World}
  {m m' : Machine World} {f f' : Frame}

theorem TraceLine.ofCall_matches {p p' : Function Value} (hp : p.Matches M p')
    (hline : M.lines 0 0) (ip : Nat) :
    (ofCall p' ip).function = (ofCall p ip).function ∧
      M.lines (ofCall p ip).line (ofCall p' ip).line := by
  refine ⟨hp.name.symm, ?_⟩
  have hlines := getElem?_of_forall₂ hp.lines (ip - 1)
  unfold ofCall Chunk.lineBefore
  dsimp only
  generalize p.chunk.lines[ip - 1]? = x, p'.chunk.lines[ip - 1]? = y at hlines
  cases hlines with
  | some hij => exact hij
  | none => exact hline

theorem RuntimeError.ofFailure_matches (failure : Failure) {p p' : Function Value}
    (hp : p.Matches M p') {callers callers' : List Frame}
    (hcallers : List.Forall₂ (Frame.Matches M) callers callers') (hline : M.lines 0 0) :
    (ofFailure failure p callers).Matches M.lines (ofFailure failure p' callers') where
  fault := rfl
  trace := by
    refine .cons (TraceLine.ofCall_matches hp hline _) ?_
    refine List.forall₂_map_left_iff.mpr (List.forall₂_map_right_iff.mpr (hcallers.imp ?_))
    intro c c' hc
    rw [hc.ip]
    exact TraceLine.ofCall_matches hc.function hline _

/-- Runs on machines that match end in the same way, after as many steps. -/
theorem Machine.Matches.ending {M : Matching} {m m' : Machine World} {f f' : Frame}
    (hhost : host.IsUniform W) (h : m.Matches M W m') (hf : f.Matches M f')
    (hline : M.lines 0 0) (limit : Nat) :
    ∃ N, M.Widens N ∧
      (Machine.ending host limit m f).Matches N W (Machine.ending host limit m' f') := by
  induction limit generalizing M m m' f f' with
  | zero => exact ⟨M, .refl M, .unfinished hf h⟩
  | succ limit ih =>
    obtain ⟨N, hMN, hprogress⟩ := h.step hhost hf
    have hlineN : N.lines 0 0 := hMN.toGrows.lines hline
    unfold Machine.ending Machine.runFor
    generalize m.step host f = p, m'.step host f' = p' at hprogress
    cases hprogress with
    | running hframe hmachine =>
      obtain ⟨P, hNP, hend⟩ := ih hmachine hframe hlineN
      exact ⟨P, hMN.trans hNP, hend⟩
    | finished hvalue hmachine => exact ⟨N, hMN, .returned hvalue hmachine⟩
    | failed failure hmachine =>
      have hfunction := Value.Matches.mono hf.function hMN.toGrows
      exact ⟨N, hMN, .raised
        (RuntimeError.ofFailure_matches failure hfunction hmachine.callers hlineN) hmachine⟩

end Runs

end ScriptEngine
