import ScriptEngine.Proofs.Joined.Relocation
import ScriptEngine.Proofs.Loops.Opening
import ScriptEngine.Proofs.Machine.Abreast
set_option autoImplicit false

/-!
# Steps of twins

Where the first things that the courses of twins have ahead are reached, a step leads to twins again
(`Machine.Twins.step`).  What the instruction finds on the stack is known for one of the frames from
the layouts of its function, and for the other one because its slots are twins.
-/

namespace ScriptEngine

open Compile Machine

variable {World : Type}

/-! ## Hosts -/

/-- The replies are the same but for twins. -/
structure Reply.Twins (W : Likeness World) (P : Cell → Cell → Prop) (r r' : Reply World) :
    Prop where
  result : EndAlike (Value.Twins P) r.result r'.result
  store : r.store.Twins P r'.store
  world : W.Alike P r.world r'.world

/-- No native tells twins apart, in surroundings that are alike. -/
def Host.IsFair (host : Host World) (W : Likeness World) : Prop :=
  ∀ {P : Cell → Cell → Prop} (n : Native) {arguments arguments' : List Value} {s s' : Store}
    {w w' : World}, List.Forall₂ (Value.Twins P) arguments arguments' → s.Twins P s' →
    W.Alike P w w' → ∃ Q : Cell → Cell → Prop, (∀ {c c'}, P c c' → Q c c') ∧
      (host.call n arguments s w).Twins W Q (host.call n arguments' s' w')

/-! ## Progress -/

/-- Both steps lead to twins, or end with twins, or fail for the same reason. -/
inductive Progress.Twins (W : Likeness World) : Progress World → Progress World → Prop where
  | running {P : Cell → Cell → Prop} {f f' : Frame} {m m' : Machine World} (frame : f.Twins P f')
      (machine : m.Twins W P m') : Twins W (.running f m) (.running f' m')
  | finished {P : Cell → Cell → Prop} {v v' : Value} {m m' : Machine World} (value : v.Twins P v')
      (machine : m.Twins W P m') : Twins W (.finished v m) (.finished v' m')
  | failed {P : Cell → Cell → Prop} {fault : Fault} {ip ip' : Nat} {m m' : Machine World}
      (machine : m.Twins W P m') : Twins W (.failed ⟨fault, ip⟩ m) (.failed ⟨fault, ip'⟩ m')

/-! ## Slots -/

/-- The slots hold twins. -/
abbrev SlotsTwins (P : Cell → Cell → Prop) (s s' : Array Value) : Prop :=
  List.Forall₂ (Value.Twins P) s.toList s'.toList

section Slots

variable {P : Cell → Cell → Prop} {s' below : Array Value} {v : Value}

theorem SlotsTwins.exists_push (h : SlotsTwins P (below.push v) s') :
    ∃ below' v', s' = below'.push v' ∧ SlotsTwins P below below' ∧ v.Twins P v' := by
  have hsize := size_eq_of_forall₂ h
  rw [Array.size_push] at hsize
  obtain ⟨below', v', rfl⟩ := @Array.eq_push_of_size_ne_zero _ s' (by omega)
  have hbelow := forall₂_dropLast h
  have hback := back?_of_forall₂ h
  rw [Array.toList_push, Array.toList_push, List.dropLast_concat, List.dropLast_concat] at hbelow
  rw [Array.back?_push, Array.back?_push] at hback
  cases hback with
  | some hv => exact ⟨below', v', rfl, hbelow, hv⟩

/-- The layout tells which instruction stands at the place of a frame, and what it finds. -/
theorem Frame.Runs.effect {L : Library} {f : Frame} {Γ : Layout} (hf : f.Runs L Γ) {op : Opcode}
    {operands : List UInt8} (hfits : Item.Fits f.chunk.constants ⟨op, operands⟩)
    (h : f.chunk.Holds f.ip (op.toByte :: operands)) :
    ∃ next after, Effect f.chunk.constants f.function.captureCount next op operands Γ after := by
  obtain ⟨op', operands', after, hholds, heff, -⟩ :=
    (L.typing f.function hf.has).instruction hf.layout
  obtain heq : (⟨op', operands'⟩ : Item) = ⟨op, operands⟩ := heff.fits.eq hfits hholds h
  cases heq
  exact ⟨_, after, heff⟩

end Slots

section Steps

variable {L : Library} {host : Host World} {W : Likeness World} {P : Cell → Cell → Prop}
  {level : Nat} {homes homes' : List Home} {f f' : Frame} {m m' : Machine World} {Γ : Layout}
  {rest : Course}

/-! ## Frames that go on -/

/-- What stays the same while a frame goes on. -/
theorem Frame.Abreast.running (hf : f.Abreast P level homes homes' f') (h : m.Twins W P m')
    (hends : rest.Ends) {ip ip' : Nat} (hfollows : Follows f.chunk level homes ip rest)
    (hfollows' : Follows f'.chunk level homes' ip' rest) {slots slots' : Array Value}
    (hslots : SlotsTwins P slots slots') :
    Progress.Twins W (.running (f.goTo ip slots) m) (.running (f'.goTo ip' slots') m') :=
  .running ⟨level, homes, homes', rest, hf.goTo ip ip' hslots, hends, hfollows, hfollows'⟩ h

theorem Frame.Abreast.size_eq (hf : f.Abreast P level homes homes' f') :
    f'.slots.size = f.slots.size :=
  (size_eq_of_forall₂ hf.slots).symm

theorem Machine.Twins.closeFrame (h : m.Twins W P m') : m.closeFrame.Twins W P m'.closeFrame := by
  have hsame : ∀ m : Machine World, m.closeFrame.callers = m.callers ∧
      m.closeFrame.globals = m.globals ∧ m.closeFrame.store = m.store ∧
      m.closeFrame.world = m.world := fun m => by
    unfold Machine.closeFrame
    split <;> exact ⟨rfl, rfl, rfl, rfl⟩
  obtain ⟨hcallers, hglobals, hstore, hworld⟩ := hsame m
  obtain ⟨hcallers', hglobals', hstore', hworld'⟩ := hsame m'
  refine ⟨?_, ?_, ?_, ?_, ?_⟩
  · rw [hcallers, hcallers']
    exact h.callers
  · rw [openCells_closeFrame, openCells_closeFrame, h.depth_eq]
    exact h.openCells.below _
  · rw [hglobals, hglobals']
    exact h.globals
  · rw [hstore, hstore']
    exact h.store
  · rw [hworld, hworld']
    exact h.world

/-- Both frames have a value on top if the layout says so. -/
theorem Frame.Abreast.exists_push (hf : f.Abreast P level homes homes' f') {κ : SlotKind}
    (hruns : f.Runs L (κ :: Γ)) :
    ∃ below below' v v', f.slots = below.push v ∧ f'.slots = below'.push v' ∧
      SlotsTwins P below below' ∧ v.Twins P v' ∧ below.size = Γ.length := by
  obtain ⟨below, v, hslots, hsize, -⟩ := hruns.exists_push
  have htwins := hf.slots
  rw [hslots] at htwins
  obtain ⟨below', v', hslots', hbelow, hv⟩ := SlotsTwins.exists_push htwins
  exact ⟨below, below', v, v', hslots, hslots', hbelow, hv, hsize⟩

/-! ## Calls -/

/-- Both frames call twins with twins as arguments. -/
theorem Frame.Abreast.invoke (hhost : host.IsFair W) (hf : f.Abreast P level homes homes' f')
    (h : m.Twins W P m') (hends : rest.Ends) (hfollows : Follows f.chunk level homes f.ip rest)
    (hfollows' : Follows f'.chunk level homes' f'.ip rest) (base : Nat) {v v' : Value}
    (hv : v.Twins P v') :
    Progress.Twins W (m.invoke host f base v) (m'.invoke host f' base v') := by
  have hcount : argumentCount f' base = argumentCount f base := by
    unfold argumentCount
    rw [hf.size_eq]
  have hback :
      Frame.Twins P (f.goTo f.ip (f.slots.take base)) (f'.goTo f'.ip (f'.slots.take base)) :=
    ⟨level, homes, homes', rest, hf.goTo _ _ (forall₂_extract hf.slots 0 base), hends, hfollows,
      hfollows'⟩
  have hwrong : ∀ expected, Progress.Twins W (m.wrongCount f base expected)
      (m'.wrongCount f' base expected) := fun expected => by
    unfold wrongCount
    rw [hcount]
    exact .failed h
  have henter : ∀ {level : Nat} {homes homes' : List Home} {g g' : Function Value}
      {cells cells' : Array Cell}, g.Twins level homes homes' g' →
      CellsTwins P homes homes' cells cells' →
      Progress.Twins W (m.enter f base g cells) (m'.enter f' base g' cells') := by
    intro level homes homes' g g' cells cells' hg hcells
    unfold enter
    rw [hcount, hg.arity]
    split
    · obtain ⟨a, ha, hcode, hcode'⟩ := hg.flow
      refine .running ⟨level, homes, homes', a.before .done,
        ⟨hg.compiled, hg.captures, hg.outer, hcells, ?_⟩, ha,
        .before hcode rfl (.of_code rfl) rfl (.done _),
        .before hcode' rfl (.of_code rfl) rfl (.done _)⟩ { h with callers := .cons hback h.callers }
      dsimp only
      rw [hf.size_eq]
      exact forall₂_extract hf.slots base _
    · exact hwrong _
  cases hv with
  | closure id same captured => exact henter same captured
  | function same => exact henter same ⟨rfl, rfl, fun hi => nomatch hi⟩
  | native n =>
    unfold Machine.invoke
    dsimp only
    rw [hcount]
    split
    · obtain ⟨Q, hPQ, hreply⟩ := hhost n
        (forall₂_extract hf.slots (base + 1) f.slots.size) h.store h.world
      have hafter := h.withStore hPQ hreply.store (h.openCells.mono hPQ)
      have hworld := hreply.world
      have hresult := hreply.result
      unfold invokeNative
      dsimp only
      rw [hf.size_eq]
      generalize host.call n _ m.store m.world = r, host.call n _ m'.store m'.world = r'
        at hafter hworld hresult ⊢
      generalize r.result = x, r'.result = y at hresult
      cases hresult with
      | ok hv => exact .running ((hback.mono hPQ).push hv) { hafter with world := hworld }
      | error message => exact .failed { hafter with world := hworld }
    · exact hwrong _
  | _ => exact .failed h

/-! ## Instructions without constants and captures -/

theorem Frame.Abreast.step_direct (hhost : host.IsFair W) (hf : f.Abreast P level homes homes' f')
    (h : m.Twins W P m') (hruns : f.Runs L Γ) {op : Opcode} {operands : List UInt8}
    (hkind : op.isDirect = true) (hcount : operands.length = op.operandBytes)
    (hstands : f.chunk.Holds f.ip (op.toByte :: operands))
    (hstands' : f'.chunk.Holds f'.ip (op.toByte :: operands))
    (hends : (Flow.direct op operands).isReturn = true ∨ rest.Ends)
    (hlater : Follows f.chunk level homes (f.ip + (op.toByte :: operands).length) rest)
    (hlater' : Follows f'.chunk level homes' (f'.ip + (op.toByte :: operands).length) rest) :
    Progress.Twins W (m.step host f) (m'.step host f') := by
  have hne : op ≠ .closure := by
    rintro rfl
    cases hkind
  obtain ⟨next, after, heff⟩ := hruns.effect (Item.fits_of_ne hne hcount) hstands
  have hgo : ∀ {m m' : Machine World} {slots slots' : Array Value},
      (Flow.direct op operands).isReturn = false → m.Twins W P m' → SlotsTwins P slots slots' →
      Progress.Twins W (.running (f.goTo (f.ip + (op.toByte :: operands).length) slots) m)
        (.running (f'.goTo (f'.ip + (op.toByte :: operands).length) slots') m') := by
    intro m m' slots slots' hreturn hm hslots
    rw [hreturn] at hends
    exact hf.running hm (hends.resolve_left Bool.false_ne_true) hlater hlater' hslots
  cases heff with
  | literal hop =>
    rw [step_literal hop hstands, step_literal hop hstands']
    refine hgo ?_ h (forall₂_push hf.slots (twins_literal op))
    cases op <;> first | rfl | cases hop
  | pop =>
    obtain ⟨below, below', v, v', hslots, hslots', hbelow, -⟩ := hf.exists_push hruns
    rw [step_pop hstands (by rw [hslots, Array.back?_push]),
      step_pop hstands' (by rw [hslots', Array.back?_push]), hslots, hslots', Array.pop_push,
      Array.pop_push]
    exact hgo rfl h hbelow
  | closeUpvalue =>
    obtain ⟨below, below', v, v', hslots, hslots', hbelow, -⟩ := hf.exists_push hruns
    rw [step_closeUpvalue hstands (by rw [hslots, Array.back?_push]),
      step_closeUpvalue hstands' (by rw [hslots', Array.back?_push]), hslots, hslots',
      Array.pop_push, Array.pop_push, h.depth_eq, ← size_eq_of_forall₂ hbelow]
    exact hgo rfl { h with openCells := h.openCells.erase _ } hbelow
  | @getLocal k b _ hpos hk =>
    have hslot := getElem?_of_forall₂ hf.slots k.toNat
    have hlt : k.toNat < f.slots.size := hruns.size ▸ lt_of_fromOldest hk
    have hsome := Array.getElem?_eq_getElem hlt
    generalize hx : f'.slots[k.toNat]? = x at hslot
    rw [hsome] at hslot
    cases hslot with
    | some hv =>
      rw [step_getLocal hstands hsome, step_getLocal hstands' hx]
      exact hgo rfl h (forall₂_push hf.slots hv)
  | @setLocal k b Δ hpos hk =>
    obtain ⟨below, below', v, v', hslots, hslots', -, hv, -⟩ := hf.exists_push hruns
    have hlt : k.toNat < f.slots.size := by
      rw [hruns.size]
      exact Nat.lt_succ_of_lt (lt_of_fromOldest hk)
    rw [step_setLocal hstands hlt (by rw [hslots, Array.back?_push]),
      step_setLocal hstands' (hf.size_eq ▸ hlt) (by rw [hslots', Array.back?_push])]
    refine hgo rfl h ?_
    rw [SlotsTwins, Array.toList_setIfInBounds, Array.toList_setIfInBounds]
    exact forall₂_set hf.slots hv _
  | binary hop =>
    obtain ⟨upper, upper', y, y', hslots, hslots', hupper, hy, hsize⟩ := hf.exists_push hruns
    have hne : upper.size ≠ 0 := hsize ▸ Nat.succ_ne_zero _
    obtain ⟨below, x, rfl⟩ := Array.eq_push_of_size_ne_zero hne
    obtain ⟨below', x', rfl, hbelow, hx⟩ := hupper.exists_push
    rw [step_binary hop hstands hslots, step_binary hop hstands' hslots',
      Opcode.binary_eq h.store.oneToOne hx hy]
    unfold afterOperator
    cases houtcome : op.binary x y with
    | ok v =>
      refine hgo ?_ h (forall₂_push hbelow (twins_of_binary houtcome))
      cases op <;> first | rfl | cases hop
    | error fault => exact .failed h
  | unary hop =>
    obtain ⟨below, below', x, x', hslots, hslots', hbelow, hx, -⟩ := hf.exists_push hruns
    rw [step_unary hop hstands hslots, step_unary hop hstands' hslots', Opcode.unary_eq hx]
    unfold afterOperator
    cases houtcome : op.unary x with
    | ok v =>
      refine hgo ?_ h (forall₂_push hbelow (twins_of_unary houtcome))
      cases op <;> first | rfl | cases hop
    | error fault => exact .failed h
  | @call n Δ =>
    have hlt : n.toNat < f.slots.size := by
      rw [hruns.size, List.length_append, List.length_replicate]
      omega
    rw [step_call hstands hlt, step_call hstands' (hf.size_eq ▸ hlt), hf.size_eq]
    refine (hf.goTo (f.ip + 2) (f'.ip + 2) hf.slots).invoke hhost h
      (hends.resolve_left Bool.false_ne_true)
      hlater hlater' _ ?_
    have hcallee := getElem?_of_forall₂ hf.slots (f.slots.size - (n.toNat + 1))
    generalize f.slots[f.slots.size - (n.toNat + 1)]? = x,
      f'.slots[f.slots.size - (n.toNat + 1)]? = y at hcallee
    cases hcallee with
    | some hv => exact hv
    | none => exact .nil
  | «return» =>
    obtain ⟨below, below', v, v', hslots, hslots', -, hv, -⟩ := hf.exists_push hruns
    rw [step_return hstands (by rw [hslots, Array.back?_push]),
      step_return hstands' (by rw [hslots', Array.back?_push])]
    have hclosed := h.closeFrame
    have hcallers := h.callers
    generalize m.callers = cs, m'.callers = cs' at hcallers
    cases hcallers with
    | nil => exact .finished hv hclosed
    | cons hcaller hothers => exact .running (hcaller.push hv) { hclosed with callers := hothers }
  | _ => cases hkind

/-! ## Constants -/

/-- The same constant may have another number. -/
theorem Frame.Abreast.step_pooled (hf : f.Abreast P level homes homes' f') (h : m.Twins W P m')
    (hruns : f.Runs L Γ) {op : Opcode} {v : Value} {k k' : UInt8} (hkind : op.isPooled = true)
    (hstands : f.chunk.Holds f.ip [op.toByte, k]) (hstands' : f'.chunk.Holds f'.ip [op.toByte, k'])
    (hv : f.chunk.constants[k.toNat]? = some v) (hv' : f'.chunk.constants[k'.toNat]? = some v)
    (hends : rest.Ends) (hlater : Follows f.chunk level homes (f.ip + 2) rest)
    (hlater' : Follows f'.chunk level homes' (f'.ip + 2) rest) :
    Progress.Twins W (m.step host f) (m'.step host f') := by
  have hfits : Item.Fits f.chunk.constants ⟨op, [k]⟩ := by
    refine Item.fits_of_ne ?_ ?_
    · rintro rfl
      cases hkind
    · cases op <;> first | rfl | cases hkind
  obtain ⟨next, after, heff⟩ := hruns.effect hfits hstands
  have hgo : ∀ {m m' : Machine World} {slots slots' : Array Value}, m.Twins W P m' →
      SlotsTwins P slots slots' → Progress.Twins W (.running (f.goTo (f.ip + 2) slots) m)
        (.running (f'.goTo (f'.ip + 2) slots') m') := fun hm hslots =>
    hf.running hm hends hlater hlater' hslots
  cases heff with
  | constant hk hliteral =>
    obtain rfl := Option.some.inj (hk.symm.trans hv)
    rw [step_constant hstands hv, step_constant hstands' hv']
    exact hgo h (forall₂_push hf.slots (twins_of_isLiteral hliteral))
  | @getGlobal _ name _ hk =>
    obtain rfl := Option.some.inj (hk.symm.trans hv)
    rw [step_getGlobal hstands hv, step_getGlobal hstands' hv']
    have hname := h.globals name
    generalize m.globals.get? name = x, m'.globals.get? name = y at hname
    cases hname with
    | some hv => exact hgo h (forall₂_push hf.slots hv)
    | none => exact .failed h
  | @defineGlobal _ name _ hk =>
    obtain rfl := Option.some.inj (hk.symm.trans hv)
    obtain ⟨below, below', v, v', hslots, hslots', hbelow, htop, -⟩ := hf.exists_push hruns
    rw [step_defineGlobal hstands hv (by rw [hslots, Array.back?_push]),
      step_defineGlobal hstands' hv' (by rw [hslots', Array.back?_push]), hslots, hslots',
      Array.pop_push, Array.pop_push]
    exact hgo { h with globals := h.globals.define name htop } hbelow
  | @setGlobal _ name _ hk =>
    obtain rfl := Option.some.inj (hk.symm.trans hv)
    obtain ⟨below, below', v, v', hslots, hslots', -, htop, -⟩ := hf.exists_push hruns
    rw [step_setGlobal hstands hv (by rw [hslots, Array.back?_push]),
      step_setGlobal hstands' hv' (by rw [hslots', Array.back?_push])]
    have hname := h.globals name
    unfold Globals.assign?
    generalize m.globals.get? name = x, m'.globals.get? name = y at hname
    cases hname with
    | some _ => exact hgo { h with globals := h.globals.define name htop } hf.slots
    | none => exact .failed h
  | _ => cases hkind

/-! ## Captured variables -/

/-- The same variable may have another number among the captures. -/
theorem Frame.Abreast.step_captured (hf : f.Abreast P level homes homes' f') (h : m.Twins W P m')
    (hruns : f.Runs L Γ) {op : Opcode} {x : Home} {k k' : UInt8} (hkind : op.isCapturing = true)
    (hstands : f.chunk.Holds f.ip [op.toByte, k]) (hstands' : f'.chunk.Holds f'.ip [op.toByte, k'])
    (hx : homes[k.toNat]? = some x) (hx' : homes'[k'.toNat]? = some x) (hends : rest.Ends)
    (hlater : Follows f.chunk level homes (f.ip + 2) rest)
    (hlater' : Follows f'.chunk level homes' (f'.ip + 2) rest) :
    Progress.Twins W (m.step host f) (m'.step host f') := by
  have hfits : Item.Fits f.chunk.constants ⟨op, [k]⟩ := by
    refine Item.fits_of_ne ?_ ?_
    · rintro rfl
      cases hkind
    · cases op <;> first | rfl | cases hkind
  obtain ⟨next, after, heff⟩ := hruns.effect hfits hstands
  have hcell : ∀ {cells : Array Cell} {hs : List Home} {i : Nat}, cells.size = hs.length →
      hs[i]? = some x → ∃ c, cells[i]? = some c := fun hsize hi =>
    ⟨_, Array.getElem?_eq_getElem (hsize ▸ (List.getElem?_eq_some_iff.mp hi).1)⟩
  obtain ⟨c, hc⟩ := hcell hf.cells.size hx
  obtain ⟨c', hc'⟩ := hcell hf.cells.size' hx'
  have hpair := hf.cells.paired hx hx' hc hc'
  cases heff with
  | getUpvalue hk =>
    rw [step_getUpvalue hstands hc, step_getUpvalue hstands' hc']
    exact hf.running h hends hlater hlater' (forall₂_push hf.slots (h.store.contents hpair))
  | setUpvalue hk =>
    obtain ⟨below, below', v, v', hslots, hslots', -, hv, -⟩ := hf.exists_push hruns
    rw [step_setUpvalue hstands hc (by rw [hslots, Array.back?_push]),
      step_setUpvalue hstands' hc' (by rw [hslots', Array.back?_push])]
    have hwritten : Machine.Twins W P { m with store := m.store.write c v }
        { m' with store := m'.store.write c' v' } := { h with store := h.store.write hpair hv }
    exact hf.running hwritten hends hlater hlater' hf.slots
  | _ => cases hkind

/-! ## Jumps -/

/-- Both frames test twins. -/
theorem Frame.Abreast.step_test (hf : f.Abreast P level homes homes' f') (h : m.Twins W P m')
    (hruns : f.Runs L Γ) {yes no : Course} {d d' : UInt8} (hyes : yes.Ends) (hno : no.Ends)
    (hstands : f.chunk.Holds f.ip [Opcode.jumpIfFalse.toByte, d])
    (hstands' : f'.chunk.Holds f'.ip [Opcode.jumpIfFalse.toByte, d'])
    (htaken : Follows f.chunk level homes (f.ip + 2) yes)
    (htaken' : Follows f'.chunk level homes' (f'.ip + 2) yes)
    (hskipped : Follows f.chunk level homes (f.ip + 2 + d.toNat) no)
    (hskipped' : Follows f'.chunk level homes' (f'.ip + 2 + d'.toNat) no) :
    Progress.Twins W (m.step host f) (m'.step host f') := by
  have hfits : Item.Fits f.chunk.constants ⟨.jumpIfFalse, [d]⟩ := Item.fits_of_ne nofun rfl
  obtain ⟨next, after, heff⟩ := hruns.effect hfits hstands
  cases heff with
  | jumpIfFalse =>
    obtain ⟨below, below', v, v', hslots, hslots', -, hv, -⟩ := hf.exists_push hruns
    rw [step_jumpIfFalse hstands (by rw [hslots, Array.back?_push]),
      step_jumpIfFalse hstands' (by rw [hslots', Array.back?_push]), hv.truth_eq, hv.typeName_eq]
    cases v.truth? with
    | none => exact .failed h
    | some b =>
      cases b with
      | true => exact hf.running h hyes htaken htaken' hf.slots
      | false => exact hf.running h hno hskipped hskipped' hf.slots

/-- Both frames go back to the start of a loop. -/
theorem Frame.Abreast.step_again (hf : f.Abreast P level homes homes' f') (h : m.Twins W P m')
    (hends : rest.Ends) {d d' : UInt8} {start start' : Nat}
    (hstands : f.chunk.Holds f.ip [Opcode.loop.toByte, d])
    (hstands' : f'.chunk.Holds f'.ip [Opcode.loop.toByte, d'])
    (htarget : start + d.toNat = f.ip + 2) (htarget' : start' + d'.toNat = f'.ip + 2)
    (hlater : Follows f.chunk level homes start rest)
    (hlater' : Follows f'.chunk level homes' start' rest) :
    Progress.Twins W (m.step host f) (m'.step host f') := by
  rw [step_loop hstands (Nat.le_of_add_left_le htarget.le),
    step_loop hstands' (Nat.le_of_add_left_le htarget'.le),
    Nat.sub_eq_of_eq_add htarget.symm, Nat.sub_eq_of_eq_add htarget'.symm]
  exact hf.running h hends hlater hlater' hf.slots

/-! ## Closures -/

/-- The variables that the closures capture are captured in some order each. -/
theorem mem_homes_iff_wanted {cs : List Capture}
    (hwithin : ∀ c ∈ cs, c.isLocal = false → c.index < homes.length)
    (houter : ∀ h ∈ homes, h.level < level) (slot : Nat) :
    ⟨level, slot⟩ ∈ cs.map (Capture.home level homes) ↔ Wanted cs slot := by
  constructor
  · intro hmem
    obtain ⟨c, hc, heq⟩ := List.mem_map.mp hmem
    unfold Capture.home at heq
    split at heq
    · next hlocal => exact ⟨c, hc, hlocal, (Home.mk.inj heq).2⟩
    · next hlocal =>
      have hlt := hwithin c hc (by simpa using hlocal)
      rw [List.getElem?_eq_getElem hlt] at heq
      have hlevel := houter _ (List.getElem_mem hlt)
      rw [show homes[c.index] = ⟨level, slot⟩ from heq] at hlevel
      exact absurd hlevel (Nat.lt_irrefl _)
  · rintro ⟨c, hc, hlocal, rfl⟩
    exact List.mem_map.mpr ⟨c, hc, if_pos hlocal⟩

/-- Closures over the same variables capture cells that stand for each other. -/
theorem cellsTwins_closure (hf : f.Abreast P level homes homes' f') {depth : Nat}
    {o o' : OpenCells} {Q : Cell → Cell → Prop} (hPQ : ∀ {c c'}, P c c' → Q c c')
    (ho : o.Twins Q o') {cs cs' : List Capture}
    (hwithin : ∀ c ∈ cs, c.isLocal = false → c.index < homes.length)
    (hwithin' : ∀ c ∈ cs', c.isLocal = false → c.index < homes'.length)
    (hopened : ∀ slot, Wanted cs slot → ∃ c, o.find? ⟨depth, slot⟩ = some c) :
    CellsTwins Q (cs.map (Capture.home level homes)) (cs'.map (Capture.home level homes'))
      (cs.map (cellOf f depth o)).toArray (cs'.map (cellOf f' depth o')).toArray := by
  refine ⟨by simp, by simp, fun {i j h c c'} hi hj hc hc' => ?_⟩
  rw [List.getElem?_toArray, List.getElem?_map] at hc hc'
  rw [List.getElem?_map] at hi hj
  obtain ⟨x, hx, rfl⟩ := Option.map_eq_some_iff.mp hi
  obtain ⟨y, hy, hhome⟩ := Option.map_eq_some_iff.mp hj
  rw [hx, Option.map_some, Option.some.injEq] at hc
  rw [hy, Option.map_some, Option.some.injEq] at hc'
  have hmem := List.mem_of_getElem? hx
  have hmem' := List.mem_of_getElem? hy
  subst hc hc'
  have houter : ∀ {k : Nat} (hk : k < homes.length), homes[k].level < level := fun hk =>
    hf.outer _ (List.getElem_mem hk)
  have houter' : ∀ {k : Nat} (hk : k < homes'.length), homes'[k].level < level := fun hk =>
    hf.outer _ ((hf.captures _).mp (List.getElem_mem hk))
  unfold Capture.home at hhome
  unfold cellOf
  cases hlocal : x.isLocal with
  | true =>
    cases hlocal' : y.isLocal with
    | true =>
      simp only [hlocal, hlocal', if_true, Home.mk.injEq, true_and] at hhome ⊢
      obtain ⟨c, hfind⟩ := hopened x.index ⟨x, hmem, hlocal, rfl⟩
      have hpair := ho.find ⟨depth, x.index⟩
      rw [hhome, hfind]
      rw [hfind] at hpair
      generalize o'.find? ⟨depth, x.index⟩ = found at hpair
      cases hpair with
      | some hcell => exact hcell
    | false =>
      have hlt := hwithin' y hmem' hlocal'
      simp only [hlocal, hlocal', if_true, Bool.false_eq_true, if_false,
        List.getElem?_eq_getElem hlt, Option.getD_some] at hhome
      have hlevel := houter' hlt
      rw [hhome] at hlevel
      exact absurd hlevel (Nat.lt_irrefl _)
  | false =>
    have hlt := hwithin x hmem hlocal
    have hlevel := houter hlt
    cases hlocal' : y.isLocal with
    | true =>
      simp only [hlocal, hlocal', if_true, Bool.false_eq_true, if_false,
        List.getElem?_eq_getElem hlt, Option.getD_some] at hhome
      rw [← hhome] at hlevel
      exact absurd hlevel (Nat.lt_irrefl _)
    | false =>
      have hlt' := hwithin' y hmem' hlocal'
      simp only [hlocal, hlocal', Bool.false_eq_true, if_false, List.getElem?_eq_getElem hlt,
        List.getElem?_eq_getElem hlt', Option.getD_some] at hhome ⊢
      have hsize := hf.cells.size
      have hsize' := hf.cells.size'
      have hcell := Array.getElem?_eq_getElem (hsize ▸ hlt)
      have hcell' := Array.getElem?_eq_getElem (hsize' ▸ hlt')
      rw [hcell, hcell']
      refine hPQ (hf.cells.paired (List.getElem?_eq_getElem hlt) ?_ hcell hcell')
      rw [List.getElem?_eq_getElem hlt', hhome]

theorem Frame.Abreast.step_closure (hf : f.Abreast P level homes homes' f') (h : m.Twins W P m')
    (hruns : f.Runs L Γ) {g g' : Function Value} {captured : List Home}
    {body : Flow} {k k' : UInt8} {pairs pairs' : List UInt8}
    (hstands : f.chunk.Holds f.ip (Opcode.closure.toByte :: k :: pairs))
    (hstands' : f'.chunk.Holds f'.ip (Opcode.closure.toByte :: k' :: pairs'))
    (hk : f.chunk.constants[k.toNat]? = some (.function g))
    (hk' : f'.chunk.constants[k'.toNat]? = some (.function g'))
    (hlen : pairs.length = 2 * g.captureCount) (hlen' : pairs'.length = 2 * g'.captureCount)
    (hid : g'.id = g.id) (hname : g'.name = g.name) (harity : g'.arity = g.arity)
    (hwithin : ∀ c ∈ Instruction.capturesOf pairs, c.isLocal = false → c.index < homes.length)
    (hwithin' : ∀ c ∈ Instruction.capturesOf pairs', c.isLocal = false → c.index < homes'.length)
    (hcaptures : ∀ h, h ∈ (Instruction.capturesOf pairs).map (Capture.home level homes) ↔
      h ∈ captured)
    (hcaptures' : ∀ h, h ∈ (Instruction.capturesOf pairs').map (Capture.home level homes') ↔
      h ∈ captured)
    (hbody : (body.before .done).Ends)
    (hcode : body.IsCode g.chunk.constants (level + 1)
      ((Instruction.capturesOf pairs).map (Capture.home level homes)) g.chunk.code.toList)
    (hcode' : body.IsCode g'.chunk.constants (level + 1)
      ((Instruction.capturesOf pairs').map (Capture.home level homes')) g'.chunk.code.toList)
    (hends : rest.Ends)
    (hlater :
      Follows f.chunk level homes (f.ip + (Opcode.closure.toByte :: k :: pairs).length) rest)
    (hlater' : Follows f'.chunk level homes'
      (f'.ip + (Opcode.closure.toByte :: k' :: pairs').length) rest) :
    Progress.Twins W (m.step host f) (m'.step host f') := by
  have hfits : Item.Fits f.chunk.constants ⟨.closure, k :: pairs⟩ := by
    unfold Item.Fits
    exact (if_pos rfl).mpr ⟨k, pairs, g, rfl, hk, hlen⟩
  obtain ⟨next, after, heff⟩ := hruns.effect hfits hstands
  obtain ⟨g₀, κ, hk₀, hallowed⟩ : ∃ g₀ κ, f.chunk.constants[k.toNat]? = some (.function g₀) ∧
      ∀ c ∈ Instruction.capturesOf pairs, c.Allowed f.function.captureCount (κ :: Γ) := by
    cases heff with
    | closure hk _ _ hpairs => exact ⟨_, _, hk, hpairs⟩
  have hwanted : ∀ slot, Wanted (Instruction.capturesOf pairs') slot ↔
      Wanted (Instruction.capturesOf pairs) slot := fun slot => by
    rw [← mem_homes_iff_wanted hwithin hf.outer, ← mem_homes_iff_wanted hwithin'
      (fun h hh => hf.outer h ((hf.captures h).mp hh)), hcaptures, hcaptures']
  have hoffers : ∀ c ∈ Instruction.capturesOf pairs, Offers f c := fun c hc =>
    (hallowed c hc).offers hruns fun hlocal => hf.cells.size.symm ▸ hwithin c hc hlocal
  have hoffers' : ∀ c ∈ Instruction.capturesOf pairs', Offers f' c := by
    intro c hc
    unfold Offers
    split
    · next hlocal =>
      obtain ⟨d, hd, hdlocal, hindex⟩ := (hwanted c.index).mp ⟨c, hc, hlocal, rfl⟩
      have hoffer := hoffers d hd
      unfold Offers at hoffer
      rw [if_pos hdlocal, hindex] at hoffer
      rw [hf.size_eq]
      exact hoffer
    · next hlocal =>
      rw [hf.cells.size']
      exact hwithin' c hc (by simpa using hlocal)
  have ht : Takes f _ m (takeAll f _ {} m).2 {} _ :=
    takes_all h.openCells.sorted (Instruction.capturesOf pairs)
  have ht' : Takes f' _ m' (takeAll f' _ {} m').2 {} _ :=
    takes_all h.openCells.sorted' (Instruction.capturesOf pairs')
  rw [Machine.step_closure hstands hk hlen hoffers rfl,
    Machine.step_closure hstands' hk' hlen' hoffers' rfl]
  generalize takeAll f (Instruction.capturesOf pairs) {} m = found at ht ⊢
  generalize takeAll f' (Instruction.capturesOf pairs') {} m' = found' at ht' ⊢
  have hafter := h.opens hf ht.opens (ht'.opens.congr hwanted)
  have hwiden : ∀ {c c'}, P c c' → WithOpened P m found.2 m' found'.2 c c' := .inl
  have hcells := cellsTwins_closure hf hwiden hafter.openCells hwithin hwithin'
    (fun slot hslot => ht.opens.opened slot hslot)
  have hvalue : Value.Twins (WithOpened P m found.2 m' found'.2)
      (.closure ⟨found.2.store.nextId, g, found.1.cells⟩)
      (.closure ⟨found'.2.store.nextId, g', found'.1.cells⟩) := by
    rw [hafter.store.nextId, ht.cells, ht'.cells, h.depth_eq]
    refine .closure _ ⟨hf.compiled.closed (Array.mem_of_getElem? hk), hid, hname, harity,
      fun x => ?_, ?_, body, hbody, hcode, hcode'⟩ ?_
    · rw [hcaptures, hcaptures']
    · -- what is captured belongs to this function or to one around it
      intro x hx
      obtain ⟨c, hc, rfl⟩ := List.mem_map.mp hx
      unfold Capture.home
      split
      · exact Nat.lt_succ_self level
      · next hlocal =>
        have hlt := hwithin c hc (by simpa using hlocal)
        rw [List.getElem?_eq_getElem hlt]
        exact Nat.lt_succ_of_lt (hf.outer _ (List.getElem_mem hlt))
    · simpa using hcells
  have hown : (found.1.own = none ∧ found'.1.own = none) ∨ ∃ c c', found.1.own = some c ∧
      found'.1.own = some c' ∧ WithOpened P m found.2 m' found'.2 c c' := by
    rw [ht.own, ht'.own, hf.size_eq, h.depth_eq]
    by_cases hslot : Wanted (Instruction.capturesOf pairs) f.slots.size
    · rw [if_pos hslot, if_pos ((hwanted _).mpr hslot)]
      obtain ⟨c, hc⟩ := ht.opens.opened _ hslot
      have hpair := hafter.openCells.find ⟨m.depth, f.slots.size⟩
      rw [hc] at hpair ⊢
      generalize found'.2.openCells.find? ⟨m.depth, f.slots.size⟩ = x at hpair ⊢
      cases hpair with
      | some hcell => exact .inr ⟨_, _, rfl, rfl, hcell⟩
    · rw [if_neg hslot, if_neg fun hw => hslot ((hwanted _).mp hw)]
      exact .inl ⟨rfl, rfl⟩
  have hstore : (fill found.2.store.freshId.2 found.1.own
      (.closure ⟨found.2.store.nextId, g, found.1.cells⟩)).Twins
        (WithOpened P m found.2 m' found'.2) (fill found'.2.store.freshId.2 found'.1.own
          (.closure ⟨found'.2.store.nextId, g', found'.1.cells⟩)) := by
    rcases hown with ⟨hnone, hnone'⟩ | ⟨c, c', hsome, hsome', hcell⟩
    · rw [hnone, hnone']
      exact hafter.store.freshId
    · rw [hsome, hsome']
      exact hafter.store.freshId.write hcell hvalue
  rw [Nat.add_assoc, Nat.add_assoc, Nat.add_comm 2, Nat.add_comm 2]
  exact (hf.mono hwiden).running (hafter.withStore id hstore hafter.openCells) hends hlater hlater'
    (forall₂_push ((hf.mono hwiden).slots) hvalue)

/-! ## Any instruction -/

/-- Where the first thing on their course is reached, frames stay twins. -/
theorem Machine.Twins.step (hhost : host.IsFair W) (h : m.Twins W P m')
    (hf : f.Abreast P level homes homes' f') (hruns : f.Runs L Γ) {course : Course}
    (hends : course.Ends) (hmeets : Meets f.chunk level homes f.ip course)
    (hmeets' : Meets f'.chunk level homes' f'.ip course) :
    Progress.Twins W (m.step host f) (m'.step host f') := by
  cases course with
  | done => exact hends.elim
  | act a rest =>
    obtain ⟨-, bytes, hcode, hstands, hlater⟩ := hmeets
    obtain ⟨hsingle, bytes', hcode', hstands', hlater'⟩ := hmeets'
    cases hcode with
    | direct kind count =>
      cases hcode' with
      | direct =>
        exact hf.step_direct hhost h hruns kind count hstands hstands' hends hlater hlater'
    | pooled kind _ constant =>
      cases hcode' with
      | pooled _ _ constant' =>
        exact hf.step_pooled h hruns kind hstands hstands' constant constant'
          (hends.resolve_left nofun) hlater hlater'
    | captured kind index =>
      cases hcode' with
      | captured _ index' =>
        exact hf.step_captured h hruns kind hstands hstands' index index'
          (hends.resolve_left nofun) hlater hlater'
    | @closure _ _ _ _ k pairs g name body constant title count _ within captures ends inside =>
      generalize ha : Flow.closure _ _ _ _ _ = a at hcode'
      cases hcode' with
      | @closure _ _ _ _ k' pairs' g' name' body' constant' title' count' _ within' captures' _
          inside' =>
        obtain ⟨hid, hname, harity, rfl, rfl⟩ := Flow.closure.inj ha
        exact hf.step_closure h hruns hstands hstands' constant constant' count count' hid.symm
          (by rw [title, title', hname]) harity.symm within within' captures captures' ends inside
          inside' (hends.resolve_left nofun) hlater hlater'
      | _ => cases ha
    | _ => cases hsingle
  | test yes no =>
    obtain ⟨d, hstands, hyes, hno⟩ := hmeets
    obtain ⟨d', hstands', hyes', hno'⟩ := hmeets'
    exact hf.step_test h hruns hends.1 hends.2 hstands hstands' hyes hyes' hno hno'
  | again a rest =>
    obtain ⟨d, start, hstands, htarget, hlater⟩ := hmeets
    obtain ⟨d', start', hstands', htarget', hlater'⟩ := hmeets'
    have hrest : rest.Ends := hends
    exact hf.step_again h (a.ends_before hrest) hstands hstands' htarget htarget' hlater hlater'

end Steps

end ScriptEngine
