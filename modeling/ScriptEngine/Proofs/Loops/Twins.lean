import ScriptEngine.Proofs.Loops.Course
import ScriptEngine.Proofs.Machine.Library
import ScriptEngine.Proofs.Machine.OpenCells
import ScriptEngine.Proofs.Matching
set_option autoImplicit false

/-!
# Twins

Two values are twins if they are equal but for the functions in them, which are code of the same
flows, and for the cells that stand for each other.  Two machines are twins if their values are and
if their calls have the same courses ahead (`Machine.Twins`).

Which cells stand for each other is given by a relation `P` throughout, which pairs them off.
-/

namespace ScriptEngine

open Machine

variable {World : Type}

/-! ## Functions -/

/-- Two functions with the same flow, which capture the same variables in some order each.  The
first one is compiled, which tells how many slots its frames have. -/
structure Function.Twins (level : Nat) (homes homes' : List Home) (g g' : Function Value) : Prop
    where
  compiled : g.IsCompiled
  id : g'.id = g.id
  name : g'.name = g.name
  arity : g'.arity = g.arity
  captures : ∀ h, h ∈ homes' ↔ h ∈ homes
  outer : ∀ h ∈ homes, h.level < level
  flow : ∃ a : Flow, (a.before .done).Ends ∧
    a.IsCode g.chunk.constants level homes g.chunk.code.toList ∧
    a.IsCode g'.chunk.constants level homes' g'.chunk.code.toList

/-- Cells for the same variable stand for each other. -/
structure CellsTwins (P : Cell → Cell → Prop) (homes homes' : List Home)
    (cells cells' : Array Cell) : Prop where
  size : cells.size = homes.length
  size' : cells'.size = homes'.length
  paired : ∀ {i j : Nat} {h : Home} {c c' : Cell}, homes[i]? = some h → homes'[j]? = some h →
    cells[i]? = some c → cells'[j]? = some c' → P c c'

theorem CellsTwins.mono {P Q : Cell → Cell → Prop} (hPQ : ∀ {c c'}, P c c' → Q c c')
    {homes homes' : List Home} {cells cells' : Array Cell}
    (h : CellsTwins P homes homes' cells cells') : CellsTwins Q homes homes' cells cells' :=
  ⟨h.size, h.size', fun hi hj hc hc' => hPQ (h.paired hi hj hc hc')⟩

/-- No cell stands for two others. -/
def PairsOff (P : Cell → Cell → Prop) : Prop :=
  ∀ {c d c' d'}, P c c' → P d d' → (c = d ↔ c' = d')

/-! ## Values -/

/-- The values are equal but for the code of functions and for cells that stand for each other. -/
inductive Value.Twins (P : Cell → Cell → Prop) : Value → Value → Prop where
  | number (x : Float) : Twins P (.number x) (.number x)
  | string (text : String) : Twins P (.string text) (.string text)
  | boolean (b : Bool) : Twins P (.boolean b) (.boolean b)
  | nil : Twins P .nil .nil
  | native (n : Native) : Twins P (.native n) (.native n)
  | upvalue {c c' : Cell} (paired : P c c') : Twins P (.upvalue c) (.upvalue c')
  | function {level : Nat} {g g' : Function Value} (same : g.Twins level [] [] g') :
      Twins P (.function g) (.function g')
  | closure {level : Nat} {homes homes' : List Home} (id : Identity) {g g' : Function Value}
      {cells cells' : Array Cell} (same : g.Twins level homes homes' g')
      (captured : CellsTwins P homes homes' cells cells') :
      Twins P (.closure ⟨id, g, cells⟩) (.closure ⟨id, g', cells'⟩)

namespace Value.Twins

variable {P Q : Cell → Cell → Prop} {v w x y : Value}

theorem mono (hPQ : ∀ {c c'}, P c c' → Q c c') (h : v.Twins P w) : v.Twins Q w := by
  cases h with
  | number x => exact .number x
  | string text => exact .string text
  | boolean b => exact .boolean b
  | nil => exact .nil
  | native n => exact .native n
  | upvalue paired => exact .upvalue (hPQ paired)
  | function same => exact .function same
  | closure id same captured => exact .closure id same (captured.mono hPQ)

theorem typeName_eq (h : v.Twins P w) : w.typeName = v.typeName := by cases h <;> rfl

theorem truth_eq (h : v.Twins P w) : w.truth? = v.truth? := by cases h <;> rfl

theorem number_eq (h : v.Twins P w) : w.number? = v.number? := by cases h <;> rfl

theorem toText_eq (h : v.Twins P w) : w.toText = v.toText := by
  have hname : ∀ {g g' : Function Value}, g'.name = g.name → g'.toText = g.toText := by
    intro g g' hname
    unfold Function.toText
    rw [hname]
  cases h with
  | function same => exact hname same.name
  | closure id same captured => exact hname same.name
  | _ => rfl

/-- Twins compare alike. -/
theorem same_eq (hP : PairsOff P) (h : v.Twins P w) (k : x.Twins P y) :
    (w == y) = (v == x) := by
  show Value.same w y = Value.same v x
  cases h with
  | function same =>
    cases k with
    | function same' => simp only [Value.same, same.id, same'.id]
    | _ => rfl
  | upvalue paired =>
    cases k with
    | upvalue paired' =>
      unfold Value.same
      rw [Bool.eq_iff_iff, beq_iff_eq, beq_iff_eq]
      exact (hP paired paired').symm
    | _ => rfl
  | _ => cases k <;> rfl

end Value.Twins

section Operators

variable {P : Cell → Cell → Prop} {op : Opcode} {x y x' y' v : Value}

/-- Operators see no difference between twins. -/
theorem Opcode.binary_eq (hP : PairsOff P) (hx : x.Twins P x') (hy : y.Twins P y') :
    op.binary x' y' = op.binary x y := by
  have hequal := hx.same_eq hP hy
  have hsum : sum? x' y' = sum? x y := by
    cases hx <;> first | rfl | (cases hy <;> rfl)
  cases op with
  | equal =>
    show Except.ok (Value.boolean (x' == y')) = Except.ok (Value.boolean (x == y))
    rw [hequal]
  | add =>
    have hadd : ∀ x y : Value, Opcode.add.binary x y =
        (sum? x y).elim (.error .operandsNotAddable) .ok := fun x y => by
      cases x <;> first | rfl | (cases y <;> rfl)
    rw [hadd, hadd, hsum]
  | _ => cases hx <;> first | rfl | (cases hy <;> rfl)

theorem Opcode.unary_eq (hx : x.Twins P x') : op.unary x' = op.unary x := by
  unfold Opcode.unary
  rw [hx.truth_eq, hx.number_eq]

/-- The outcome of an operator is its own twin. -/
theorem twins_of_binary (h : op.binary x y = .ok v) : v.Twins P v := by
  unfold Opcode.binary at h
  split at h
  case h_7 =>
    split at h
    · next hsum =>
      cases h
      unfold sum? at hsum
      split at hsum <;> cases hsum
      · exact .number _
      · exact .string _
    · cases h
  case h_8 => cases h
  all_goals
    cases h
    first | exact .number _ | exact .boolean _

theorem twins_of_unary (h : op.unary x = .ok v) : v.Twins P v := by
  unfold Opcode.unary at h
  split at h <;> split at h <;> cases h
  · exact .boolean _
  · exact .number _

/-- Constants that are no functions are their own twins. -/
theorem twins_of_isLiteral (h : v.isLiteral = true) : v.Twins P v := by
  cases v with
  | number x => exact .number x
  | string text => exact .string text
  | _ => cases h

theorem twins_literal (op : Opcode) : op.literal.Twins P op.literal := by
  unfold Opcode.literal
  split
  · exact .boolean _
  · exact .boolean _
  · exact .nil

end Operators

/-! ## Stores -/

/-- Cells that stand for each other exist, are paired off and hold twins. -/
structure Store.Twins (P : Cell → Cell → Prop) (s s' : Store) : Prop where
  nextId : s'.nextId = s.nextId
  oneToOne : PairsOff P
  cells : ∀ {c c'}, P c c' → c.index < s.cells.size ∧ c'.index < s'.cells.size
  contents : ∀ {c c'}, P c c' → (s.read c).Twins P (s'.read c')

section Stores

variable {P Q : Cell → Cell → Prop} {s s' : Store} {v v' : Value} {c c' : Cell}

theorem Store.Twins.write (h : s.Twins P s') (hc : P c c') (hv : v.Twins P v') :
    (s.write c v).Twins P (s'.write c' v') where
  nextId := h.nextId
  oneToOne := h.oneToOne
  cells hd := by
    simp only [Store.write, Array.size_setIfInBounds]
    exact h.cells hd
  contents {d d'} hd := by
    have hiff := h.oneToOne hc hd
    by_cases heq : c = d
    · obtain rfl := heq
      obtain rfl := hiff.mp rfl
      rw [Store.read_write _ (h.cells hc).1, Store.read_write _ (h.cells hc).2]
      exact hv
    · rw [Store.read_write_of_ne _ heq, Store.read_write_of_ne _ (mt hiff.mpr heq)]
      exact h.contents hd

/-- A new closure takes the same identity. -/
theorem Store.Twins.freshId (h : s.Twins P s') : s.freshId.2.Twins P s'.freshId.2 where
  nextId := congrArg (· + 1) h.nextId
  oneToOne := h.oneToOne
  cells := h.cells
  contents := h.contents

/-! ## Open cells -/

/-- For the same places there are open cells, which stand for each other. -/
structure OpenCells.Twins (P : Cell → Cell → Prop) (o o' : OpenCells) : Prop where
  sorted : o.Sorted
  sorted' : o'.Sorted
  find : ∀ p, Option.Rel P (o.find? p) (o'.find? p)

end Stores

namespace OpenCells

variable {P Q : Cell → Cell → Prop} {o o' : OpenCells} {p q : SlotPlace} {c : Cell}

theorem find_insert (h : o.Sorted) (hnone : o.find? p = none) :
    (o.insert p c).find? q = if q = p then some c else o.find? q := by
  have hplaces := (find_eq_none_iff h).mp hnone
  refine Option.ext fun d => ?_
  rw [find_eq_some_iff (h.insert hplaces c), mem_insert hplaces]
  split
  · next heq =>
    subst heq
    simp only [OpenCell.mk.injEq, true_and, Option.some.injEq]
    exact ⟨fun hor => hor.elim Eq.symm fun hmem => absurd rfl (hplaces _ hmem),
      fun h => .inl h.symm⟩
  · next hne =>
    rw [find_eq_some_iff h]
    simp [hne]

theorem find_erase (h : o.Sorted) :
    (o.erase p).find? q = if q = p then none else o.find? q := by
  refine Option.ext fun d => ?_
  rw [find_eq_some_iff (h.erase p), mem_erase h]
  split
  · next heq => simp [heq]
  · next hne => simp [hne, find_eq_some_iff h]

theorem find_below (h : o.Sorted) (depth : Nat) :
    (o.below depth).find? q = if q.depth < depth then o.find? q else none := by
  refine Option.ext fun d => ?_
  rw [find_eq_some_iff (h.below depth), mem_below h]
  split
  · next hlt => simp [hlt, find_eq_some_iff h]
  · next hge => simp [hge]

theorem Twins.erase (h : o.Twins P o') (p : SlotPlace) : (o.erase p).Twins P (o'.erase p) where
  sorted := h.sorted.erase p
  sorted' := h.sorted'.erase p
  find q := by
    rw [find_erase h.sorted, find_erase h.sorted']
    split
    · exact .none
    · exact h.find q

theorem Twins.below (h : o.Twins P o') (depth : Nat) :
    (o.below depth).Twins P (o'.below depth) where
  sorted := h.sorted.below depth
  sorted' := h.sorted'.below depth
  find q := by
    rw [find_below h.sorted, find_below h.sorted']
    split
    · exact h.find q
    · exact .none

theorem Twins.mono (hPQ : ∀ {c c'}, P c c' → Q c c') (h : o.Twins P o') : o.Twins Q o' where
  sorted := h.sorted
  sorted' := h.sorted'
  find q := by
    have hq := h.find q
    generalize o.find? q = x, o'.find? q = y at hq
    cases hq with
    | some hc => exact .some (hPQ hc)
    | none => exact .none

theorem twins_empty (P : Cell → Cell → Prop) : Twins P #[] #[] :=
  ⟨sorted_empty, sorted_empty, fun _ => .none⟩

end OpenCells

/-! ## Frames and machines -/

/-- Frames of functions that capture the same variables, with twins in their slots. -/
structure Frame.Abreast (P : Cell → Cell → Prop) (level : Nat) (homes homes' : List Home)
    (f f' : Frame) : Prop where
  compiled : f.function.IsCompiled
  captures : ∀ h, h ∈ homes' ↔ h ∈ homes
  outer : ∀ h ∈ homes, h.level < level
  cells : CellsTwins P homes homes' f.cells f'.cells
  slots : List.Forall₂ (Value.Twins P) f.slots.toList f'.slots.toList

/-- Such frames with the same course ahead, which ends in a return. -/
def Frame.Twins (P : Cell → Cell → Prop) (f f' : Frame) : Prop :=
  ∃ level homes homes' rest, f.Abreast P level homes homes' f' ∧ rest.Ends ∧
    Follows f.chunk level homes f.ip rest ∧ Follows f'.chunk level homes' f'.ip rest

/-- The globals have the same names, and twins as their values. -/
def Globals.Twins (P : Cell → Cell → Prop) (g g' : Globals) : Prop :=
  ∀ name, Option.Rel (Value.Twins P) (g.get? name) (g'.get? name)

/-- Which surroundings are as good as the same, if cells stand for each other as a relation says.
If more cells do, this does not end. -/
structure Likeness (World : Type) where
  Alike : (Cell → Cell → Prop) → World → World → Prop
  mono : ∀ {P Q : Cell → Cell → Prop} {w w' : World}, (∀ {c c'}, P c c' → Q c c') →
    Alike P w w' → Alike Q w w'

/-- Machines in like surroundings whose calls, cells and globals are twins. -/
structure Machine.Twins (W : Likeness World) (P : Cell → Cell → Prop) (m m' : Machine World) :
    Prop where
  callers : List.Forall₂ (Frame.Twins P) m.callers m'.callers
  openCells : m.openCells.Twins P m'.openCells
  globals : m.globals.Twins P m'.globals
  store : m.store.Twins P m'.store
  world : W.Alike P m.world m'.world

section Machines

variable {W : Likeness World} {P Q : Cell → Cell → Prop} {level : Nat} {homes homes' : List Home}
  {f f' : Frame} {m m' : Machine World} {v v' : Value}

theorem Frame.Abreast.mono (hPQ : ∀ {c c'}, P c c' → Q c c')
    (h : f.Abreast P level homes homes' f') : f.Abreast Q level homes homes' f' :=
  ⟨h.compiled, h.captures, h.outer, h.cells.mono hPQ, h.slots.imp fun _ _ hv => hv.mono hPQ⟩

theorem Frame.Abreast.goTo (h : f.Abreast P level homes homes' f') (ip ip' : Nat)
    {slots slots' : Array Value}
    (hslots : List.Forall₂ (Value.Twins P) slots.toList slots'.toList) :
    (f.goTo ip slots).Abreast P level homes homes' (f'.goTo ip' slots') :=
  ⟨h.compiled, h.captures, h.outer, h.cells, hslots⟩

theorem Frame.Twins.mono (hPQ : ∀ {c c'}, P c c' → Q c c') (h : f.Twins P f') : f.Twins Q f' := by
  obtain ⟨level, homes, homes', rest, habreast, hfollows⟩ := h
  exact ⟨level, homes, homes', rest, habreast.mono hPQ, hfollows⟩

theorem Frame.Twins.push (h : f.Twins P f') (hv : v.Twins P v') :
    (f.push v).Twins P (f'.push v') := by
  obtain ⟨level, homes, homes', rest, habreast, hfollows⟩ := h
  exact ⟨level, homes, homes', rest, ⟨habreast.compiled, habreast.captures, habreast.outer,
    habreast.cells, forall₂_push habreast.slots hv⟩, hfollows⟩

theorem Globals.Twins.mono (hPQ : ∀ {c c'}, P c c' → Q c c') {g g' : Globals}
    (h : g.Twins P g') : g.Twins Q g' := by
  intro name
  have hname := h name
  generalize g.get? name = x, g'.get? name = y at hname
  cases hname with
  | some hv => exact .some (hv.mono hPQ)
  | none => exact .none

theorem Globals.Twins.define {g g' : Globals} (h : g.Twins P g') (name : String)
    (hv : v.Twins P v') : (g.define name v).Twins P (g'.define name v') := by
  intro other
  by_cases heq : name = other
  · subst heq
    rw [Globals.get_define_self, Globals.get_define_self]
    exact .some hv
  · rw [Globals.get_define_of_ne heq, Globals.get_define_of_ne heq]
    exact h other

theorem Machine.Twins.depth_eq (h : m.Twins W P m') : m'.depth = m.depth :=
  h.callers.length_eq.symm

/-- The store and the open cells may be those of a wider relation. -/
theorem Machine.Twins.withStore (h : m.Twins W P m') (hPQ : ∀ {c c'}, P c c' → Q c c')
    {s s' : Store} (hs : s.Twins Q s') {o o' : OpenCells} (ho : o.Twins Q o') :
    { m with store := s, openCells := o }.Twins W Q { m' with store := s', openCells := o' } where
  callers := h.callers.imp fun _ _ hf => hf.mono hPQ
  openCells := ho
  globals := h.globals.mono hPQ
  store := hs
  world := W.mono hPQ h.world

end Machines

end ScriptEngine
