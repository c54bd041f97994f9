import ScriptEngine.Proofs.Captures
set_option autoImplicit false

/-!
# Machine: what one step does to slots and cells

`Turn` says where a step of compiled code can lead; `Moves` says what becomes of the values
on the way.  Within a call an instruction takes some values off the stack and puts others
on it, and it leaves the slots below alone, unless it assigns to one of them
(`Frame.Advances`).  Cells keep what they hold, unless the instruction assigns to a captured
variable, and nothing but the making of a closure hands out cells.
-/

namespace ScriptEngine

open Machine

variable {World : Type}

/-! ## What instructions do to the stack -/

namespace Instruction

/-- How many values the instruction takes off the stack, if it does not end the call. -/
def takes (i : Instruction) : Nat :=
  if i.op.isBinary then 2
  else if i.op.isUnary then 1
  else
    match i.op with
    | .pop | .closeUpvalue | .defineGlobal => 1
    | .call => (i.operands.headD 0).toNat + 1
    | _ => 0

/-- How many values the instruction puts on the stack. -/
def gives (i : Instruction) : Nat :=
  if i.op.isBinary || i.op.isUnary || i.op.isLiteral then 1
  else
    match i.op with
    | .constant | .getLocal | .getGlobal | .getUpvalue | .call | .closure => 1
    | _ => 0

/-- Where control can go from the instruction within its function. -/
def nexts (i : Instruction) : List Nat :=
  match i.op with
  | .return => []
  | .jump | .loop => i.target?.toList
  | .jumpIfFalse => (i.offset + i.size) :: i.target?.toList
  | _ => [i.offset + i.size]

/-- The slot that the instruction assigns to. -/
def assigns? (i : Instruction) : Option Nat :=
  if i.op = .setLocal then i.operands.head?.map UInt8.toNat else none

end Instruction

/-- A place in a function's code, and how many values the frame has there. -/
structure Spot where
  offset : Nat
  height : Nat
  deriving DecidableEq

/-- Where the frame is. -/
def Frame.spot (f : Frame) : Spot := ⟨f.ip, f.slots.size⟩

/-- Where the frame will be once it has the value that it waits for. -/
def Frame.resumption (f : Frame) : Spot := ⟨f.ip, f.slots.size + 1⟩

/-- Where the live frame with `d` calls below it is, or will be when it goes on. -/
def Machine.spotAt (m : Machine World) (f : Frame) (d : Nat) : Option Spot :=
  if d = m.depth then some f.spot else (fromOldest? m.callers d).map Frame.resumption

/-! ## Moves -/

/-- The frame `g` comes of the frame `f` by the instruction `i`, with so many values. -/
structure Frame.Advances (f : Frame) (i : Instruction) (g : Frame) (height : Nat) : Prop where
  decode : f.chunk.decode f.ip = .ok i
  function : g.function = f.function
  next : g.ip ∈ i.nexts
  enough : i.takes ≤ f.slots.size
  height : height + i.takes = f.slots.size + i.gives
  kept : ∀ k, k + i.takes < f.slots.size →
    (i.assigns? = some k ∧ k < g.slots.size) ∨ g.slots[k]? = f.slots[k]?

/-- What a step makes of the live frames: `g` is the one with `d` calls below it. -/
inductive Becomes (m : Machine World) (f : Frame) (m' : Machine World) (f' : Frame) (d : Nat)
    (g : Frame) : Prop where
  | entered (depth : d = m.depth + 1) (spot : m'.spotAt f' d = some ⟨0, 1 + g.function.arity⟩)
  | same (before : Frame) (frame : m.frameAt f d = some before)
      (function : g.function = before.function) (spot : m'.spotAt f' d = m.spotAt f d)
      (slots : ∀ k < before.slots.size, g.slots[k]? = before.slots[k]?)
  | advanced (i : Instruction) (height : Nat) (depth : d = m.depth)
      (spot : m'.spotAt f' d = some ⟨g.ip, height⟩) (advances : f.Advances i g height)

/-- Cells hold what they held. -/
structure Store.Spares (s s' : Store) : Prop where
  grows : s.cells.size ≤ s'.cells.size
  reads : ∀ c : Cell, c.index < s.cells.size → s'.read c = s.read c

/-- Natives leave the cells of programs alone. -/
def Host.SparesCells (host : Host World) : Prop :=
  ∀ n arguments (store : Store) world, store.Spares (host.call n arguments store world).store

/-- All cells that are in the value have the property. -/
def Value.HoldsOnly (K : Cell → Prop) : Value → Prop
  | .closure c => ∀ cell ∈ c.cells, K cell
  | _ => True

/-- All cells that are in the frame have the property. -/
structure Frame.HoldsOnly (K : Cell → Prop) (f : Frame) : Prop where
  cells : ∀ cell ∈ f.cells, K cell
  slots : ∀ v ∈ f.slots, v.HoldsOnly K

/-- All cells that a program can get at have the property, and natives give no others. -/
structure Machine.HoldsOnly (host : Host World) (K : Cell → Prop) (m : Machine World)
    (f : Frame) : Prop where
  globals : ∀ name v, m.globals.get? name = some v → v.HoldsOnly K
  store : ∀ v ∈ m.store.cells, v.HoldsOnly K
  callers : ∀ g ∈ m.callers, g.HoldsOnly K
  frame : f.HoldsOnly K
  natives : host.GivesBack (Value.HoldsOnly K) m.world

/-- What becomes of slots and cells in a step. -/
structure Moves (host : Host World) (m : Machine World) (f : Frame) (m' : Machine World)
    (f' : Frame) : Prop where
  frames : ∀ d g, m'.frameAt f' d = some g → Becomes m f m' f' d g
  store : (∃ i, f.chunk.decode f.ip = .ok i ∧ i.op = .setUpvalue) ∨ m.store.Spares m'.store
  opened : ∀ e ∈ m'.openCells, e ∈ m.openCells ∨ ∃ c, m.Captures host f e.place e.cell c m'
  holds : ∀ K : Cell → Prop, m.HoldsOnly host K f →
    (∀ place cell c, m.Captures host f place cell c m' → K cell) → m'.HoldsOnly host K f'

/-! ## Cells in values -/

section Holding

variable {host : Host World} {K : Cell → Prop} {m m' : Machine World} {f : Frame} {v : Value}

theorem Store.Spares.refl (s : Store) : s.Spares s := ⟨Nat.le_refl _, fun _ _ => rfl⟩

theorem Store.Spares.trans {s s' s'' : Store} (h : s.Spares s') (k : s'.Spares s'') :
    s.Spares s'' :=
  ⟨Nat.le_trans h.grows k.grows, fun c hc =>
    (k.reads c (Nat.lt_of_lt_of_le hc h.grows)).trans (h.reads c hc)⟩

theorem Value.HoldsOnly.of_code (K : Cell → Prop) (h : v.code? = none) : v.HoldsOnly K := by
  cases v <;> first | exact trivial | cases h

theorem Value.HoldsOnly.of_isLiteral (K : Cell → Prop) (h : v.isLiteral = true) :
    v.HoldsOnly K := by
  cases v <;> first | exact trivial | cases h

theorem Frame.HoldsOnly.goTo (h : f.HoldsOnly K) {ip : Nat} {slots : Array Value}
    (hslots : ∀ v ∈ slots, v ∈ f.slots ∨ v.HoldsOnly K) : (f.goTo ip slots).HoldsOnly K :=
  ⟨h.cells, fun v hv => (hslots v hv).elim (h.slots v) id⟩

/-- The frame only goes on. -/
theorem Machine.HoldsOnly.goTo (h : m.HoldsOnly host K f) {ip : Nat} {slots : Array Value}
    (hslots : ∀ v ∈ slots, v ∈ f.slots ∨ v.HoldsOnly K) : m.HoldsOnly host K (f.goTo ip slots) :=
  ⟨h.globals, h.store, h.callers, h.frame.goTo hslots, h.natives⟩

theorem Machine.HoldsOnly.push (h : m.HoldsOnly host K f) {ip : Nat} (hv : v.HoldsOnly K) :
    m.HoldsOnly host K (f.goTo ip (f.slots.push v)) :=
  h.goTo fun w hw => (Array.mem_push.mp hw).imp id fun (heq : w = v) => heq ▸ hv

theorem Machine.HoldsOnly.stay (h : m.HoldsOnly host K f) (ip : Nat) :
    m.HoldsOnly host K (f.goTo ip f.slots) :=
  h.goTo fun _ => .inl

theorem Machine.HoldsOnly.pop (h : m.HoldsOnly host K f) (ip : Nat) :
    m.HoldsOnly host K (f.goTo ip f.slots.pop) := by
  refine h.goTo fun v hv => .inl ?_
  obtain ⟨k, hk, rfl⟩ := Array.mem_iff_getElem.mp hv
  rw [Array.getElem_pop]
  exact Array.getElem_mem _

theorem Machine.HoldsOnly.define (h : m.HoldsOnly host K f) (name : String) (hv : v.HoldsOnly K) :
    ({ m with globals := m.globals.define name v } : Machine World).HoldsOnly host K f where
  globals other w hw := by
    rcases Globals.eq_or_get_of_get_define hw with rfl | hw
    · exact hv
    · exact h.globals other w hw
  store := h.store
  callers := h.callers
  frame := h.frame
  natives := h.natives

theorem Machine.HoldsOnly.assign (h : m.HoldsOnly host K f) {name : String} (hv : v.HoldsOnly K)
    {globals : Globals} (hassign : m.globals.assign? name v = some globals) :
    ({ m with globals } : Machine World).HoldsOnly host K f := by
  unfold Globals.assign? at hassign
  split at hassign
  · cases hassign
    exact h.define name hv
  · cases hassign

theorem Machine.HoldsOnly.withStore (h : m.HoldsOnly host K f) {store : Store}
    (hstore : ∀ v ∈ store.cells, v.HoldsOnly K) :
    ({ m with store } : Machine World).HoldsOnly host K f :=
  ⟨h.globals, hstore, h.callers, h.frame, h.natives⟩

theorem Store.holdsOnly_read {s : Store} (h : ∀ v ∈ s.cells, v.HoldsOnly K) (c : Cell) :
    (s.read c).HoldsOnly K := by
  unfold Store.read
  cases hv : s.cells[c.index]? with
  | none => exact trivial
  | some v => exact h v (Array.mem_of_getElem? hv)

theorem Store.holdsOnly_write {s : Store} (h : ∀ v ∈ s.cells, v.HoldsOnly K) (c : Cell)
    (hv : v.HoldsOnly K) : ∀ w ∈ (s.write c v).cells, w.HoldsOnly K := by
  intro w hw
  rcases Array.mem_or_eq_of_mem_setIfInBounds hw with hold | rfl
  · exact h w hold
  · exact hv

end Holding

/-! ## Steps within a call -/

section Steps

variable {L : Library} {host : Host World} {m m' : Machine World} {f : Frame} {Γ : Layout}
  {i : Instruction} {ip : Nat} {slots : Array Value}

/-- The instruction leaves all slots below `b` alone but the one it assigns to. -/
theorem advances_goTo (hdecode : f.chunk.decode f.ip = .ok i) (hnext : ip ∈ i.nexts)
    {b : Nat} (hbase : b + i.takes = f.slots.size) (hsize : slots.size = b + i.gives)
    (hkept : ∀ k < b, i.assigns? = some k ∨ slots[k]? = f.slots[k]?) :
    f.Advances i (f.goTo ip slots) slots.size where
  decode := hdecode
  function := rfl
  next := hnext
  enough := by omega
  height := by omega
  kept k hk := (hkept k (by omega)).imp (fun h => ⟨h, show k < slots.size by omega⟩) id

theorem spotAt_depth (m : Machine World) (f : Frame) : m.spotAt f m.depth = some f.spot :=
  if_pos rfl

theorem spotAt_of_ne {d : Nat} (h : d ≠ m.depth) :
    m.spotAt f d = (fromOldest? m.callers d).map Frame.resumption :=
  if_neg h

/-- A step that stays in the call only changes the frame that runs. -/
theorem becomes_within (h : f.Advances i (f.goTo ip slots) slots.size)
    (hcallers : m'.callers = m.callers) (d : Nat) (g : Frame)
    (hg : m'.frameAt (f.goTo ip slots) d = some g) :
    Becomes m f m' (f.goTo ip slots) d g := by
  have hdepth := depth_eq hcallers
  rcases Nat.lt_or_eq_of_le (le_depth_of_frameAt hg) with hlt | rfl
  · rw [frameAt_of_lt hlt, hcallers] at hg
    refine .same g ((frameAt_of_lt (hdepth ▸ hlt)).trans hg) rfl ?_ fun _ _ => rfl
    rw [spotAt_of_ne (Nat.ne_of_lt hlt), spotAt_of_ne (Nat.ne_of_lt (hdepth ▸ hlt)), hcallers]
  · rw [frameAt_depth] at hg
    cases hg
    exact .advanced i slots.size hdepth (spotAt_depth _ _) h

/-- A step that stays in the call and makes no closure. -/
theorem moves_within (h : f.Advances i (f.goTo ip slots) slots.size)
    (hcallers : m'.callers = m.callers)
    (hstore : i.op = .setUpvalue ∨ m.store.Spares m'.store)
    (hopen : ∀ e ∈ m'.openCells, e ∈ m.openCells)
    (hholds : ∀ K : Cell → Prop, m.HoldsOnly host K f → m'.HoldsOnly host K (f.goTo ip slots)) :
    Moves host m f m' (f.goTo ip slots) where
  frames := becomes_within h hcallers
  store := hstore.imp (fun hop => ⟨i, h.decode, hop⟩) id
  opened e he := .inl (hopen e he)
  holds K hK _ := hholds K hK

/-- The step changes nothing but the frame. -/
theorem moves_alone (h : f.Advances i (f.goTo ip slots) slots.size)
    (hholds : ∀ K : Cell → Prop, m.HoldsOnly host K f → m.HoldsOnly host K (f.goTo ip slots)) :
    Moves host m f m (f.goTo ip slots) :=
  moves_within h rfl (.inr (.refl _)) (fun _ => id) hholds

/-- The instruction pushes a value. -/
theorem moves_push (hdecode : f.chunk.decode f.ip = .ok i) (hnext : ip ∈ i.nexts)
    (htakes : i.takes = 0) (hgives : i.gives = 1) {v : Value}
    (hv : ∀ K : Cell → Prop, m.HoldsOnly host K f → v.HoldsOnly K) :
    Moves host m f m (f.goTo ip (f.slots.push v)) := by
  refine moves_alone (advances_goTo hdecode hnext (b := f.slots.size) (by rw [htakes]; rfl)
    ?_ fun k hk => .inr ?_) fun K hK => hK.push (hv K hK)
  · rw [Array.size_push, hgives]
  · rw [Array.getElem?_push, if_neg (Nat.ne_of_lt hk)]

/-- The instruction leaves the stack as it is. -/
theorem advances_stay (hdecode : f.chunk.decode f.ip = .ok i) (hnext : ip ∈ i.nexts)
    (htakes : i.takes = 0) (hgives : i.gives = 0) :
    f.Advances i (f.goTo ip f.slots) f.slots.size :=
  advances_goTo hdecode hnext (b := f.slots.size) (by rw [htakes]; rfl) (by rw [hgives]; rfl)
    fun _ _ => .inr rfl

/-- The instruction takes the value on top. -/
theorem advances_drop (hdecode : f.chunk.decode f.ip = .ok i) (hnext : ip ∈ i.nexts)
    (htakes : i.takes = 1) (hgives : i.gives = 0) (hpos : 0 < f.slots.size) :
    f.Advances i (f.goTo ip f.slots.pop) f.slots.pop.size := by
  refine advances_goTo hdecode hnext (b := f.slots.pop.size) ?_ (by rw [hgives]; rfl)
    fun k hk => .inr ?_
  · rw [htakes, Array.size_pop]
    omega
  · rw [Array.getElem?_pop, if_pos (Array.size_pop ▸ hk)]

/-- The instruction puts the outcome of an operator in the place of its operands. -/
theorem moves_operator (hdecode : f.chunk.decode f.ip = .ok i) (hnext : f.ip + 1 ∈ i.nexts)
    (hgives : i.gives = 1) {below : Array Value} (hsize : below.size + i.takes = f.slots.size)
    (hbelow : ∀ k < below.size, below[k]? = f.slots[k]?) {outcome : Except Fault Value}
    (hok : ∀ (K : Cell → Prop) v, outcome = .ok v → v.HoldsOnly K) {f' : Frame}
    (h : m.afterOperator f below outcome = .running f' m') : Moves host m f m' f' := by
  unfold afterOperator at h
  split at h
  · next v =>
    obtain ⟨rfl, rfl⟩ := Progress.running.inj h
    refine moves_alone (advances_goTo hdecode hnext hsize ?_ fun k hk => .inr ?_) fun K hK => ?_
    · rw [Array.size_push, hgives]
    · rw [Array.getElem?_push, if_neg (Nat.ne_of_lt hk), hbelow k hk]
    · refine hK.goTo fun w hw => (Array.mem_push.mp hw).imp (fun hold => ?_)
        fun (heq : w = v) => heq ▸ hok K v rfl
      obtain ⟨k, hk, rfl⟩ := Array.mem_iff_getElem.mp hold
      refine Array.mem_of_getElem? (i := k) ?_
      rw [← hbelow k hk, Array.getElem?_eq_getElem hk]
  · cases h

theorem binary_holdsOnly (K : Cell → Prop) {op : Opcode} {x y v : Value}
    (h : op.binary x y = .ok v) : v.HoldsOnly K := by
  unfold Opcode.binary at h
  split at h
  case h_7 =>
    split at h
    · next hsum =>
      cases h
      unfold sum? at hsum
      split at hsum <;> cases hsum <;> exact trivial
    · cases h
  case h_8 => cases h
  all_goals
    cases h
    exact trivial

theorem unary_holdsOnly (K : Cell → Prop) {op : Opcode} {x v : Value}
    (h : op.unary x = .ok v) : v.HoldsOnly K := by
  unfold Opcode.unary at h
  split at h <;> split at h <;> cases h <;> exact trivial

/-! ## Closures -/

/-- What is captured from further outside is a cell of the frame. -/
theorem takeAll_outer (hm : m.IsOrdered) {cs : List Capture} {taken : Taken} {n : Nat}
    {c : Capture} (hc : cs[n]? = some c) (hlocal : c.isLocal = false) :
    (takeAll f cs taken m).1.cells[taken.cells.size + n]? =
      some (f.cells[c.index]?.getD default) := by
  induction cs generalizing taken m n with
  | nil => cases hc
  | cons c' cs ih =>
    have hordered := (gathers_takeOne (f := f) hm c' taken).ordered
    have hsize := size_takeOne f c' taken m
    cases n with
    | zero =>
      obtain rfl : c' = c := Option.some.inj hc
      refine (gathers_takeAll hordered cs _).old _ _ ?_
      unfold takeOne
      rw [hlocal]
      exact Array.getElem?_push_size
    | succ n =>
      rw [Nat.add_comm n 1, ← Nat.add_assoc, ← hsize]
      exact ih hordered hc

theorem holdsOnly_takeOne {K : Cell → Prop} (hm : m.HoldsOnly host K f) (c : Capture)
    (taken : Taken) : (takeOne f c taken m).2.HoldsOnly host K f := by
  unfold takeOne
  split
  · have hv : (f.slots[c.index]?.getD .nil).HoldsOnly K := by
      cases hslot : f.slots[c.index]? with
      | none => exact trivial
      | some v => exact hm.frame.slots v (Array.mem_of_getElem? hslot)
    unfold cellFor
    dsimp only
    split
    · exact hm
    · refine ⟨hm.globals, fun v hmem => ?_, hm.callers, hm.frame, hm.natives⟩
      rcases Array.mem_push.mp hmem with hold | rfl
      · exact hm.store v hold
      · exact hv
  · exact hm

theorem holdsOnly_takeAll {K : Cell → Prop} (hm : m.HoldsOnly host K f) (cs : List Capture)
    (taken : Taken) : (takeAll f cs taken m).2.HoldsOnly host K f := by
  induction cs generalizing m taken with
  | nil => exact hm
  | cons c cs ih => exact ih (holdsOnly_takeOne hm c taken) _

/-- Making a closure. -/
theorem moves_closure (htidy : m.IsTidy L f) {g : Function Value} {taken : Taken}
    {after : Machine World} (hdecode : f.chunk.decode f.ip = .ok i) (hop : i.op = .closure)
    (hnext : ip ∈ i.nexts) (hoffers : ∀ c ∈ i.captures, Offers f c)
    (htake : takeAll f i.captures {} m = (taken, after))
    (hstep : m.step host f = .running
      (f.goTo ip (f.slots.push (.closure ⟨after.store.nextId, g, taken.cells⟩)))
      { after with
        store := fill after.store.freshId.2 taken.own
          (.closure ⟨after.store.nextId, g, taken.cells⟩) }) :
    Moves host m f
      { after with
        store := fill after.store.freshId.2 taken.own
          (.closure ⟨after.store.nextId, g, taken.cells⟩) }
      (f.goTo ip (f.slots.push (.closure ⟨after.store.nextId, g, taken.cells⟩))) := by
  have hgathers := gathers_takeAll (f := f) htidy.toIsOrdered i.captures {}
  have hsize := size_takeAll f i.captures {} m
  have houter : ∀ n c, i.captures[n]? = some c → c.isLocal = false →
      (takeAll f i.captures {} m).1.cells[({} : Taken).cells.size + n]? =
        some (f.cells[c.index]?.getD default) := fun n c hc hlocal =>
    takeAll_outer htidy.toIsOrdered hc hlocal
  have hheld := fun K (hK : m.HoldsOnly host K f) => holdsOnly_takeAll hK i.captures {}
  rw [htake] at hgathers hsize houter hheld
  have hzero : ∀ n, ({} : Taken).cells.size + n = n := Nat.zero_add
  have htakes : i.takes = 0 := by
    unfold Instruction.takes
    rw [hop]
    rfl
  have hgives : i.gives = 1 := by
    unfold Instruction.gives
    rw [hop]
    rfl
  have hcaptures : ∀ (slot n : Nat) (cell : Cell), i.captures[n]? = some ⟨true, slot⟩ →
      taken.cells[n]? = some cell →
      m.Captures host f ⟨m.depth, slot⟩ cell ⟨after.store.nextId, g, taken.cells⟩
        { after with
          store := fill after.store.freshId.2 taken.own
            (.closure ⟨after.store.nextId, g, taken.cells⟩) } :=
    fun slot n cell hn hcell => ⟨⟨ip, hstep⟩, rfl, i, n, hdecode, hn, hcell⟩
  refine ⟨becomes_within (advances_goTo hdecode hnext (b := f.slots.size)
    (by rw [htakes]; rfl) ?_ fun k hk => .inr ?_) hgathers.callers, .inr ⟨?_, fun c hc => ?_⟩,
    fun e he => (hgathers.fresh e he).imp id fun hfresh => ?_, fun K hK hnew => ?_⟩
  · rw [Array.size_push, hgives]
  · rw [Array.getElem?_push, if_neg (Nat.ne_of_lt hk)]
  · exact Nat.le_trans hgathers.grows (Nat.le_of_eq (size_fill after.store.freshId.2 _ _).symm)
  · have hread : (fill after.store.freshId.2 taken.own
        (.closure ⟨after.store.nextId, g, taken.cells⟩)).read c = after.store.read c := by
      cases hown : taken.own with
      | none => rfl
      | some own =>
        refine Store.read_write_of_ne _ fun hsame => ?_
        have hmem := (hgathers.own own hown).resolve_left (fun h => nomatch h)
        rcases hgathers.fresh _ hmem with hold | hfresh
        · -- there is no slot yet that the closure will be put into
          obtain ⟨owner, howner, hexposes⟩ := htidy.live _ hold
          rw [frameAt_depth] at howner
          cases howner
          exact absurd hexposes.inside (Nat.lt_irrefl _)
        · have hnew : m.store.cells.size ≤ own.index := hfresh.new
          rw [hsame] at hnew
          exact Nat.not_lt.mpr hnew hc
    exact hread.trans (hgathers.reads c hc)
  · obtain ⟨n, hn⟩ := List.mem_iff_getElem?.mp hfresh.captured
    obtain ⟨cell, hcell, hmem⟩ := hgathers.cells n _ hn rfl
    rw [hzero] at hcell
    have hplace : e.place = ⟨m.depth, e.place.slot⟩ := by rw [← hfresh.depth]
    have heq : e = ⟨⟨m.depth, e.place.slot⟩, cell⟩ :=
      hgathers.ordered.sorted.eq_of_place he hmem hplace
    rw [hplace, show e.cell = cell from congrArg OpenCell.cell heq]
    exact ⟨_, hcaptures _ n cell hn hcell⟩
  · have hclosure : (Value.closure ⟨after.store.nextId, g, taken.cells⟩).HoldsOnly K := by
      intro cell hcell
      obtain ⟨n, hn⟩ := Array.mem_iff_getElem?.mp hcell
      have hlt := (Array.getElem?_eq_some_iff.mp hn).1
      have hlt' : n < i.captures.length := by
        rw [hsize, hzero] at hlt
        exact hlt
      obtain ⟨c, hc⟩ : ∃ c, i.captures[n]? = some c := ⟨_, List.getElem?_eq_getElem hlt'⟩
      cases hlocal : c.isLocal with
      | true =>
        refine hnew ⟨m.depth, c.index⟩ cell _ (hcaptures c.index n cell ?_ hn)
        rw [hc, ← hlocal]
      | false =>
        have hcell' := houter n c hc hlocal
        rw [hzero, hn] at hcell'
        have hoffers' := hoffers c (List.mem_of_getElem? hc)
        unfold Offers at hoffers'
        rw [hlocal, if_neg Bool.false_ne_true] at hoffers'
        rw [Array.getElem?_eq_getElem hoffers'] at hcell'
        obtain rfl := Option.some.inj hcell'
        exact hK.frame.cells _ (Array.getElem_mem _)
    have hafter := hheld K hK
    refine (Machine.HoldsOnly.push hafter hclosure).withStore ?_
    cases hown : taken.own with
    | none => exact hafter.store
    | some own => exact Store.holdsOnly_write hafter.store own hclosure

/-! ## Calls -/

theorem mem_of_mem_extract {v : Value} {a b : Nat} (h : v ∈ slots.extract a b) : v ∈ slots := by
  obtain ⟨k, hk, rfl⟩ := Array.mem_iff_getElem.mp h
  rw [Array.getElem_extract]
  exact Array.getElem_mem _

/-- Entering a function. -/
theorem moves_enter {callee : Frame} {base : Nat} (hdecode : f.chunk.decode f.ip = .ok i)
    (hnext : ip ∈ i.nexts) (hgives : i.gives = 1) (hbase : base + i.takes = f.slots.size)
    (hstart : callee.spot = ⟨0, 1 + callee.function.arity⟩)
    (hholds : ∀ K : Cell → Prop, f.HoldsOnly K → callee.HoldsOnly K) :
    Moves host m f { m with callers := f.goTo ip (f.slots.take base) :: m.callers } callee := by
  have hle : base ≤ f.slots.size := by omega
  have hsize : (f.slots.take base).size = base := by
    rw [Array.take_eq_extract, Array.size_extract]
    omega
  have hget : ∀ k < base, (f.slots.take base)[k]? = f.slots[k]? := fun k hk => by
    rw [Array.take_eq_extract, Array.getElem?_extract, if_pos (by omega), Nat.zero_add]
  have hmem : ∀ v ∈ f.slots.take base, v ∈ f.slots := fun v hv =>
    mem_of_mem_extract (Array.take_eq_extract ▸ hv)
  refine ⟨fun d g hg => ?_, .inr (.refl _), fun e he => .inl he, fun K hK _ =>
    ⟨hK.globals, hK.store, ?_, hholds K hK.frame, hK.natives⟩⟩
  · rcases Nat.lt_or_eq_of_le (le_depth_of_frameAt hg) with hlt | rfl
    · have hspot : Machine.spotAt { m with callers := f.goTo ip (f.slots.take base) :: m.callers }
          callee d = (fromOldest? (f.goTo ip (f.slots.take base) :: m.callers) d).map
            Frame.resumption := spotAt_of_ne (Nat.ne_of_lt hlt)
      rw [frameAt_of_lt hlt] at hg
      rcases Nat.lt_or_eq_of_le (Nat.le_of_lt_succ hlt) with hlt | rfl
      · have hcaller : fromOldest? (f.goTo ip (f.slots.take base) :: m.callers) d =
            fromOldest? m.callers d := fromOldest_cons_of_lt hlt
        rw [hcaller] at hspot
        refine .same g ((frameAt_of_lt hlt).trans (hcaller.symm.trans hg)) rfl ?_ fun _ _ => rfl
        rw [hspot, spotAt_of_ne (Nat.ne_of_lt hlt)]
      · have hself : fromOldest? (f.goTo ip (f.slots.take base) :: m.callers) m.callers.length =
            some (f.goTo ip (f.slots.take base)) := fromOldest_cons_self _ _
        obtain rfl := Option.some.inj (hself.symm.trans hg)
        refine .advanced i (base + 1) rfl ?_ ⟨hdecode, rfl, hnext, by omega, by omega, fun k hk =>
          .inr (hget k (by omega))⟩
        rw [hspot, hself]
        exact congrArg (fun n => some (Spot.mk ip (n + 1))) hsize
    · rw [frameAt_depth] at hg
      obtain rfl := Option.some.inj hg
      exact .entered rfl ((spotAt_depth _ _).trans (congrArg some hstart))
  · refine List.forall_mem_cons.mpr ⟨hK.frame.goTo fun v hv => .inl (hmem v hv), hK.callers⟩

theorem globals_closeFrame (m : Machine World) : m.closeFrame.globals = m.globals := by
  unfold closeFrame
  split <;> rfl

theorem world_closeFrame (m : Machine World) : m.closeFrame.world = m.world := by
  unfold closeFrame
  split <;> rfl

/-- Leaving a function. -/
theorem moves_return (htidy : m.IsTidy L f) {caller : Frame} {callers : List Frame} {v : Value}
    (hcallers : m.callers = caller :: callers) (hv : v ∈ f.slots) :
    Moves host m f { m.closeFrame with callers } (caller.push v) := by
  have hdepth : m.depth = callers.length + 1 := by
    unfold Machine.depth
    rw [hcallers]
    rfl
  refine ⟨fun d g hg => ?_, .inr ?_, fun e he => .inl ?_, fun K hK _ => ?_⟩
  · rcases Nat.lt_or_eq_of_le (le_depth_of_frameAt hg) with hlt | rfl
    · have hcaller : fromOldest? m.callers d = fromOldest? callers d := by
        rw [hcallers]
        exact fromOldest_cons_of_lt hlt
      rw [frameAt_of_lt hlt] at hg
      have hlt' : d < m.depth := hdepth ▸ Nat.lt_succ_of_lt hlt
      refine .same g ((frameAt_of_lt hlt').trans (hcaller.trans hg)) rfl ?_ fun _ _ => rfl
      rw [spotAt_of_ne (Nat.ne_of_lt hlt), spotAt_of_ne (Nat.ne_of_lt hlt'), hcaller]
    · rw [frameAt_depth] at hg
      obtain rfl := Option.some.inj hg
      have hlt : callers.length < m.depth := hdepth ▸ Nat.lt_succ_self _
      have hcaller : fromOldest? m.callers callers.length = some caller := by
        rw [hcallers]
        exact fromOldest_cons_self _ _
      refine .same caller ((frameAt_of_lt hlt).trans hcaller) rfl ?_ fun k hk => ?_
      · refine (spotAt_depth _ _).trans (Eq.symm ?_)
        refine (spotAt_of_ne (Nat.ne_of_lt hlt)).trans ?_
        show (fromOldest? m.callers callers.length).map Frame.resumption = _
        rw [hcaller]
        exact congrArg (fun n => some (Spot.mk caller.ip n)) (Array.size_push v).symm
      · exact (Array.getElem?_push ..).trans (if_neg (Nat.ne_of_lt hk))
  · rw [show ({ m.closeFrame with callers } : Machine World).store = m.store from
      store_closeFrame m]
    exact .refl _
  · have he' : e ∈ m.openCells.below m.depth := openCells_closeFrame m ▸ he
    exact ((OpenCells.mem_below htidy.sorted).mp he').1
  · have hall := hK.callers
    rw [hcallers] at hall
    obtain ⟨hcaller, hrest⟩ := List.forall_mem_cons.mp hall
    refine ⟨fun name w hw => hK.globals name w ?_, fun w hw => hK.store w ?_, hrest,
      ⟨hcaller.cells, fun w hw => ?_⟩, ?_⟩
    · exact globals_closeFrame m ▸ hw
    · exact store_closeFrame m ▸ hw
    · rcases Array.mem_push.mp hw with hold | rfl
      · exact hcaller.slots w hold
      · exact hK.frame.slots w hv
    · rw [show ({ m.closeFrame with callers } : Machine World).world = m.world from
        world_closeFrame m]
      exact hK.natives

/-- Calling a value. -/
theorem moves_call (hcells : host.SparesCells) {n : UInt8}
    (hdecode : f.chunk.decode f.ip = .ok i) (hnext : f.ip + 2 ∈ i.nexts) (hgives : i.gives = 1)
    (htakes : i.takes = n.toNat + 1)
    (h : f.chunk.Holds f.ip [Opcode.call.toByte, n]) (hle : n.toNat + 1 ≤ f.slots.size)
    {f' : Frame} (hstep : m.step host f = .running f' m') : Moves host m f m' f' := by
  have hbase : f.slots.size - (n.toNat + 1) + i.takes = f.slots.size := by omega
  rw [step_call h (by omega)] at hstep
  generalize f.slots.size - (n.toNat + 1) = base at hbase hstep
  have hlt : base < f.slots.size := by omega
  obtain ⟨callee, hcallee⟩ : ∃ v, f.slots[base]? = some v :=
    ⟨_, Array.getElem?_eq_getElem hlt⟩
  have hmem : callee ∈ f.slots := Array.mem_of_getElem? hcallee
  rw [hcallee] at hstep
  have henter : ∀ (g : Function Value) (cells : Array Cell),
      m.enter (f.goTo (f.ip + 2) f.slots) base g cells = .running f' m' →
      (∀ K : Cell → Prop, f.HoldsOnly K → ∀ cell ∈ cells, K cell) → Moves host m f m' f' := by
    intro g cells hstep hheld
    unfold enter at hstep
    split at hstep
    · next harity =>
      obtain ⟨rfl, rfl⟩ := Progress.running.inj hstep
      refine moves_enter hdecode hnext hgives hbase (congrArg (Spot.mk 0) ?_) fun K hK =>
        ⟨hheld K hK, fun v hv => hK.slots v (mem_of_mem_extract hv)⟩
      rw [harity]
      show (f.slots.extract base f.slots.size).size = 1 + (f.slots.size - (base + 1))
      rw [Array.size_extract]
      omega
    · cases hstep
  change m.invoke host (f.goTo (f.ip + 2) f.slots) base callee = _ at hstep
  unfold invoke at hstep
  cases callee with
  | closure c => exact henter c.function c.cells hstep fun K hK => hK.slots _ hmem
  | function g =>
    exact henter g #[] hstep fun K hK cell hcell => absurd hcell (Array.not_mem_empty _)
  | native native =>
    dsimp only at hstep
    split at hstep
    · unfold invokeNative at hstep
      dsimp only at hstep
      split at hstep
      · next v hv =>
        obtain ⟨rfl, rfl⟩ := Progress.running.inj hstep
        have harguments : ∀ w ∈ (f.slots.extract (base + 1) f.slots.size).toList, w ∈ f.slots :=
          fun w hw => mem_of_mem_extract (Array.mem_toList_iff.mp hw)
        have htaken : ∀ w ∈ f.slots.take base, w ∈ f.slots := fun w hw =>
          mem_of_mem_extract (Array.take_eq_extract ▸ hw)
        have hadvances : f.Advances i (f.goTo (f.ip + 2) ((f.slots.take base).push v))
            ((f.slots.take base).push v).size := by
          refine advances_goTo hdecode hnext hbase ?_ fun k hk => .inr ?_
          · rw [Array.size_push, hgives, Array.take_eq_extract, Array.size_extract]
            omega
          · rw [Array.getElem?_push, Array.take_eq_extract, Array.size_extract,
              if_neg (by omega), Array.getElem?_extract, if_pos (by omega), Nat.zero_add]
        refine moves_within hadvances rfl (.inr (hcells native _ m.store m.world))
          (fun _ => id) fun K hK => ?_
        have hheld : ∀ w ∈ (f.slots.extract (base + 1) f.slots.size).toList, w.HoldsOnly K :=
          fun w hw => hK.frame.slots w (harguments w hw)
        have hreply := hK.natives.gives.reply (n := native) hheld hK.store
        refine ⟨hK.globals, hreply.cells, hK.callers, hK.frame.goTo fun w hw =>
          (Array.mem_push.mp hw).imp (htaken w) ?_, hK.natives.next hheld hK.store⟩
        rintro rfl
        exact hreply.result _ hv
      · cases hstep
    · cases hstep
  | _ => cases hstep

/-! ## All steps -/

/-- There is a value on top. -/
theorem Frame.Runs.exists_back {κ : SlotKind} (hf : f.Runs L (κ :: Γ)) :
    ∃ v ∈ f.slots, f.slots.back? = some v ∧ 0 < f.slots.size := by
  obtain ⟨below, v, hslots, -⟩ := hf.exists_push
  rw [hslots]
  exact ⟨v, Array.mem_push_self, Array.back?_push, Array.size_push v ▸ Nat.succ_pos _⟩

/-- An instruction takes off what the frame says that it does. -/
theorem Frame.Runs.taken_eq (hf : f.Runs L Γ) (hi : f.chunk.decode f.ip = .ok i)
    (hreturn : i.op ≠ .return) : f.taken = i.takes := by
  obtain ⟨op, operands, after, hholds, heff, -⟩ :=
    (L.typing f.function hf.has).instruction hf.layout
  obtain ⟨line, hdecode⟩ := Chunk.decode_eq (L.typing f.function hf.has).size_lines hholds heff
  obtain rfl : _ = i := Except.ok.inj (hdecode.symm.trans hi)
  unfold Frame.taken
  rw [nextOpcode_eq hholds]
  cases heff with
  | literal hop => cases op <;> first | rfl | cases hop
  | binary hop => cases op <;> first | rfl | cases hop
  | unary hop => cases op <;> first | rfl | cases hop
  | call =>
    rw [code_operand hholds]
    rfl
  | «return» => exact absurd rfl hreturn
  | _ => rfl

/-- Only a return leaves the call, and it takes all values of the frame. -/
theorem le_depth_of_step (hf : f.Runs L Γ) (hm : m.IsSound L host)
    (htidy : m.IsTidy L f) {f' : Frame} (hstep : m.step host f = .running f' m') :
    m.depth ≤ m'.depth ∨ (m.depth = m'.depth + 1 ∧ f.spared = 0) := by
  have hturn := turn_of_step hf hm
  rw [hstep] at hturn
  cases hturn with
  | inside _ _ _ _ hcallers => exact .inl (Nat.le_of_eq (depth_eq hcallers).symm)
  | retire => exact .inl (Nat.le_refl _)
  | @closure _ _ _ cs taken after _ _ htake =>
    have hgathers := gathers_takeAll (f := f) htidy.toIsOrdered cs {}
    rw [htake] at hgathers
    exact .inl (Nat.le_of_eq (depth_eq hgathers.callers).symm)
  | enter => exact .inl (Nat.le_succ _)
  | «return» _ hspared hcallers =>
    refine .inr ⟨?_, hspared⟩
    unfold Machine.depth
    rw [hcallers]
    rfl

/-- A step that goes on has found the cell that it reads or writes. -/
theorem exists_cell_of_step {op : Opcode} {k : UInt8} {f' : Frame}
    (hop : op = .getUpvalue ∨ op = .setUpvalue) (h : f.chunk.Holds f.ip [op.toByte, k])
    (hstep : m.step host f = .running f' m') : ∃ cell, f.cells[k.toNat]? = some cell := by
  cases hcell : f.cells[k.toNat]? with
  | some cell => exact ⟨cell, rfl⟩
  | none =>
    obtain ⟨failure, hfailed⟩ : ∃ failure, m.step host f = .failed failure m :=
      exists_step_upvalue_failed hop h hcell
    cases hfailed.symm.trans hstep

/-- What becomes of slots and cells in a step of compiled code. -/
theorem moves_of_step (hcells : host.SparesCells) (hf : f.Runs L Γ)
    (htidy : m.IsTidy L f) {f' : Frame} (hstep : m.step host f = .running f' m') :
    Moves host m f m' f' := by
  obtain ⟨op, operands, after, hholds, heff, hafter⟩ :=
    (L.typing f.function hf.has).instruction hf.layout
  obtain ⟨line, hdecode⟩ := Chunk.decode_eq (L.typing f.function hf.has).size_lines hholds heff
  cases heff with
  | literal hop =>
    rw [step_literal hop hholds] at hstep
    obtain ⟨rfl, rfl⟩ := Progress.running.inj hstep
    refine moves_push hdecode ?_ ?_ ?_ fun _ _ => ?_ <;>
      cases op <;> first | exact List.mem_singleton.mpr rfl | rfl | exact trivial | cases hop
  | constant hk hv =>
    rw [step_constant hholds hk] at hstep
    obtain ⟨rfl, rfl⟩ := Progress.running.inj hstep
    exact moves_push hdecode (List.mem_singleton.mpr rfl) rfl rfl fun K _ => .of_isLiteral K hv
  | pop hκ =>
    obtain ⟨v, -, hback, hpos⟩ := hf.exists_back
    rw [step_pop hholds hback] at hstep
    obtain ⟨rfl, rfl⟩ := Progress.running.inj hstep
    exact moves_alone (advances_drop hdecode (List.mem_singleton.mpr rfl) rfl rfl hpos)
      fun K hK => hK.pop _
  | closeUpvalue =>
    obtain ⟨v, -, hback, hpos⟩ := hf.exists_back
    rw [step_closeUpvalue hholds hback] at hstep
    obtain ⟨rfl, rfl⟩ := Progress.running.inj hstep
    refine moves_within (advances_drop hdecode (List.mem_singleton.mpr rfl) rfl rfl hpos) rfl
      (.inr (.refl _)) (fun e he => ((OpenCells.mem_erase htidy.sorted).mp he).1) fun K hK => ?_
    exact ⟨hK.globals, hK.store, hK.callers, (hK.pop _).frame, hK.natives⟩
  | @getLocal k b _ hpos hk =>
    have hlt : k.toNat < f.slots.size := hf.size ▸ lt_of_fromOldest hk
    rw [step_getLocal hholds (Array.getElem?_eq_getElem hlt)] at hstep
    obtain ⟨rfl, rfl⟩ := Progress.running.inj hstep
    exact moves_push hdecode (List.mem_singleton.mpr rfl) rfl rfl fun K hK =>
      hK.frame.slots _ (Array.getElem_mem _)
  | @setLocal k b Δ hpos hk =>
    obtain ⟨v, hmem, hback, -⟩ := hf.exists_back
    have hlt : k.toNat < f.slots.size := by
      rw [hf.size]
      exact Nat.lt_succ_of_lt (lt_of_fromOldest hk)
    rw [step_setLocal hholds hlt hback] at hstep
    obtain ⟨rfl, rfl⟩ := Progress.running.inj hstep
    refine moves_alone (advances_goTo hdecode (List.mem_singleton.mpr rfl)
      (b := f.slots.size) rfl Array.size_setIfInBounds fun n hn => ?_) fun K hK => ?_
    · by_cases hsame : k.toNat = n
      · exact .inl (congrArg some hsame)
      · exact .inr (Array.getElem?_setIfInBounds_ne hsame)
    · refine hK.goTo fun w hw => .inl ?_
      rcases Array.mem_or_eq_of_mem_setIfInBounds hw with hold | rfl
      · exact hold
      · exact hmem
  | getGlobal hk =>
    rw [step_getGlobal hholds hk] at hstep
    split at hstep
    · next v hv =>
      obtain ⟨rfl, rfl⟩ := Progress.running.inj hstep
      exact moves_push hdecode (List.mem_singleton.mpr rfl) rfl rfl fun K hK =>
        hK.globals _ v hv
    · cases hstep
  | @defineGlobal k name Δ hk =>
    obtain ⟨v, hmem, hback, hpos⟩ := hf.exists_back
    rw [step_defineGlobal hholds hk hback] at hstep
    obtain ⟨rfl, rfl⟩ := Progress.running.inj hstep
    exact moves_within (advances_drop hdecode (List.mem_singleton.mpr rfl) rfl rfl hpos) rfl
      (.inr (.refl _)) (fun _ => id) fun K hK => (hK.pop _).define name (hK.frame.slots v hmem)
  | setGlobal hk =>
    obtain ⟨v, hmem, hback, -⟩ := hf.exists_back
    rw [step_setGlobal hholds hk hback] at hstep
    split at hstep
    · next globals hassign =>
      obtain ⟨rfl, rfl⟩ := Progress.running.inj hstep
      exact moves_within (advances_stay hdecode (List.mem_singleton.mpr rfl) rfl rfl) rfl
        (.inr (.refl _)) (fun _ => id) fun K hK =>
          (hK.stay _).assign (hK.frame.slots v hmem) hassign
    · cases hstep
  | @getUpvalue k _ hk =>
    obtain ⟨cell, hcell⟩ := exists_cell_of_step (.inl rfl) hholds hstep
    rw [step_getUpvalue hholds hcell] at hstep
    obtain ⟨rfl, rfl⟩ := Progress.running.inj hstep
    exact moves_push hdecode (List.mem_singleton.mpr rfl) rfl rfl fun K hK =>
      Store.holdsOnly_read hK.store _
  | @setUpvalue k _ hk =>
    obtain ⟨v, hmem, hback, -⟩ := hf.exists_back
    obtain ⟨cell, hcell⟩ := exists_cell_of_step (.inr rfl) hholds hstep
    rw [step_setUpvalue hholds hcell hback] at hstep
    obtain ⟨rfl, rfl⟩ := Progress.running.inj hstep
    exact moves_within (advances_stay hdecode (List.mem_singleton.mpr rfl) rfl rfl) rfl
      (.inl rfl) (fun _ => id) fun K hK =>
        (hK.stay _).withStore (Store.holdsOnly_write hK.store _ (hK.frame.slots v hmem))
  | @binary op Δ hop =>
    obtain ⟨below', y, hslots, hsize, -⟩ := hf.exists_push
    have hne : below'.size ≠ 0 := hsize ▸ Nat.succ_ne_zero _
    obtain ⟨below, x, rfl⟩ := Array.eq_push_of_size_ne_zero hne
    rw [step_binary hop hholds hslots] at hstep
    refine moves_operator hdecode ?_ ?_ ?_ (fun k hk => ?_) (fun K v h => binary_holdsOnly K h)
      hstep
    · cases op <;> first | exact List.mem_singleton.mpr rfl | cases hop
    · cases op <;> first | rfl | cases hop
    · rw [hslots, Array.size_push, Array.size_push]
      cases op <;> first | rfl | cases hop
    · rw [hslots, Array.getElem?_push, Array.size_push, if_neg (by omega), Array.getElem?_push,
        if_neg (by omega)]
  | @unary op Δ hop =>
    obtain ⟨below, x, hslots, -⟩ := hf.exists_push
    rw [step_unary hop hholds hslots] at hstep
    refine moves_operator hdecode ?_ ?_ ?_ (fun k hk => ?_) (fun K v h => unary_holdsOnly K h)
      hstep
    · cases op <;> first | exact List.mem_singleton.mpr rfl | cases hop
    · cases op <;> first | rfl | cases hop
    · rw [hslots, Array.size_push]
      cases op <;> first | rfl | cases hop
    · rw [hslots, Array.getElem?_push, if_neg (by omega)]
  | jump =>
    rw [step_jump hholds] at hstep
    obtain ⟨rfl, rfl⟩ := Progress.running.inj hstep
    exact moves_alone (advances_stay hdecode (List.mem_singleton.mpr rfl) rfl rfl)
      fun K hK => hK.stay _
  | @jumpIfFalse d Δ =>
    obtain ⟨v, -, hback, -⟩ := hf.exists_back
    rw [step_jumpIfFalse hholds hback] at hstep
    split at hstep
    · next b _ =>
      obtain ⟨rfl, rfl⟩ := Progress.running.inj hstep
      refine moves_alone (advances_stay hdecode ?_ rfl rfl) fun K hK => hK.stay _
      cases b
      · exact List.mem_cons_of_mem _ (List.mem_singleton.mpr rfl)
      · exact List.mem_cons_self
    · cases hstep
  | @loop d Δ hd =>
    rw [step_loop hholds hd] at hstep
    obtain ⟨rfl, rfl⟩ := Progress.running.inj hstep
    refine moves_alone (advances_stay hdecode ?_ rfl rfl) fun K hK => hK.stay _
    have hd' : d.toNat ≤ f.ip + 2 := hd
    show f.ip + 2 - d.toNat ∈ (if d.toNat ≤ f.ip + 2 then _ else none : Option Nat).toList
    rw [if_pos hd']
    exact List.mem_singleton.mpr rfl
  | @call n Δ =>
    refine moves_call hcells hdecode (List.mem_singleton.mpr rfl) rfl rfl hholds ?_ hstep
    rw [hf.size, List.length_append, List.length_replicate]
    exact Nat.le_add_right _ _
  | @closure k pairs g κ _ hk hsize _ hpairs =>
    have hoffers : ∀ c ∈ Instruction.capturesOf pairs, Offers f c := fun c hc => by
      by_contra hnot
      obtain ⟨failure, k', hfailed⟩ : (m.step host f).HasFailed := hasFailed_of_not_offers hdecode
        (Nat.le_of_eq (L.typing f.function hf.has).size_lines.symm) hf.roomAskedFor_lt rfl hc hnot
      cases hfailed.symm.trans hstep
    cases htake : takeAll f (Instruction.capturesOf pairs) {} m with
    | mk taken after =>
    have hclosure : m.step host f = _ := step_closure hholds hk hsize hoffers htake
    obtain ⟨rfl, rfl⟩ := Progress.running.inj (hclosure.symm.trans hstep)
    refine moves_closure htidy hdecode rfl (List.mem_singleton.mpr ?_) hoffers htake hclosure
    show f.ip + 2 + pairs.length = f.ip + ((k :: pairs).length + 1)
    rw [List.length_cons]
    omega
  | «return» =>
    obtain ⟨v, hmem, hback, -⟩ := hf.exists_back
    rw [step_return hholds hback] at hstep
    split at hstep
    · next caller callers hcallers =>
      obtain ⟨rfl, rfl⟩ := Progress.running.inj hstep
      exact moves_return htidy hcallers hmem
    · cases hstep

end Steps

end ScriptEngine
