import ScriptEngine.Proofs.Compile.Sane
import ScriptEngine.Proofs.Draft
set_option autoImplicit false

/-!
# Compilation: locals and layouts

The compiler keeps a list of locals; a frame has slots.  At the end of the code
of a function under construction the two fit together: below a number of
temporary values, each slot belongs to one local (`Over`).  Whether a local is
captured is known only at the end of its scope, so layouts are fitted to locals
that may be more captured than they are now.

`Placed` says that the code is a draft whose end has such a layout.  It is kept
by each thing that the compiler does in one function and one scope.
-/

namespace ScriptEngine.Compile

/-! ## Layouts of locals -/

/-- The layout of a frame that holds these locals and nothing else.  Slot 0 is
the callee, which has no name. -/
inductive Fits : Layout → List Local → Prop where
  | callee {l : Local} (name : l.name = "") : Fits [.callee] [l]
  | cons {b : Bool} {Γ : Layout} {l : Local} {ls : List Local}
      (isCaptured : l.isCaptured = true → b = true) (older : Fits Γ ls) :
      Fits (.variable b :: Γ) (l :: ls)

/-- The layout of a frame with temporary values above these locals. -/
inductive Over (ls : List Local) : Layout → Prop where
  | bare {Γ : Layout} (h : Fits Γ ls) : Over ls Γ
  | push {Γ : Layout} (h : Over ls Γ) : Over ls (.temporary :: Γ)

theorem Fits.length_eq {Γ : Layout} {ls : List Local} (h : Fits Γ ls) :
    Γ.length = ls.length := by
  induction h with
  | callee => rfl
  | cons _ _ ih => rw [List.length_cons, List.length_cons, ih]

/-- The oldest slot is the callee's. -/
theorem Fits.getLast {Γ : Layout} {ls : List Local} (h : Fits Γ ls) :
    Γ.getLast? = some .callee := by
  induction h with
  | callee => rfl
  | @cons b Γ l ls _ _ ih => rw [List.getLast?_cons, ih]; rfl

theorem Fits.ne_nil {Γ : Layout} {ls : List Local} (h : Fits Γ ls) : ls ≠ [] := by
  cases h <;> exact List.cons_ne_nil _ _

/-- A layout for more captured locals will do for less captured ones. -/
theorem Fits.lower {Γ : Layout} {ls ls' : List Local} (h : Fits Γ ls')
    (hraised : RaisedAll ls ls') : Fits Γ ls := by
  induction h generalizing ls with
  | callee hname =>
    cases hraised with
    | cons hl hrest =>
      cases hrest
      exact .callee (hl.name ▸ hname)
  | cons hcap _ ih =>
    cases hraised with
    | cons hl hrest => exact .cons (fun hc => hcap (hl.isCaptured hc)) (ih hrest)

/-- A name means a variable, whose slot is not the callee's. -/
theorem Fits.slot {Γ : Layout} {ls : List Local} (h : Fits Γ ls) {name : String}
    (hname : name ≠ "") {slot : Nat} {l : Local} (hslot : slotOf? name ls = some (slot, l)) :
    0 < slot ∧ ∃ b, fromOldest? Γ slot = some (.variable b) := by
  induction h with
  | callee hl =>
    unfold slotOf? at hslot
    rw [hl, if_neg (Ne.symm hname)] at hslot
    cases hslot
  | @cons b Γ l' ls _ hfits ih =>
    unfold slotOf? at hslot
    split at hslot
    · cases hslot
      rw [← hfits.length_eq]
      refine ⟨?_, b, fromOldest_cons_self _ _⟩
      rw [hfits.length_eq]
      exact List.length_pos_iff.mpr hfits.ne_nil
    · obtain ⟨hpos, b', hb'⟩ := ih hslot
      exact ⟨hpos, b', by rw [fromOldest_cons_of_lt (lt_of_fromOldest hb'), hb']⟩

/-- The slot of a captured local is one that may be captured. -/
theorem Fits.captured {Γ : Layout} {ls : List Local} (h : Fits Γ ls) {i : Nat} {l : Local}
    (hl : fromOldest? ls i = some l) (hname : l.name ≠ "") (hcap : l.isCaptured = true) :
    fromOldest? Γ i = some (.variable true) := by
  induction h with
  | callee hl' =>
    unfold fromOldest? at hl
    split at hl
    · cases hl
      exact absurd hl' hname
    · cases hl
  | @cons b Γ l' ls hcap' hfits ih =>
    unfold fromOldest? at hl ⊢
    rw [hfits.length_eq]
    split at hl
    · next hi =>
      cases hl
      rw [if_pos hi, hcap' hcap]
    · next hi =>
      rw [if_neg hi]
      exact ih hl

/-- Only the slots of locals are variables, and never the callee's. -/
theorem Over.variable_lt {Γ : Layout} {ls : List Local} (h : Over ls Γ) {i : Nat} {b : Bool}
    (hi : fromOldest? Γ i = some (.variable b)) : 0 < i ∧ i < ls.length := by
  induction h with
  | bare h =>
    refine ⟨?_, h.length_eq ▸ lt_of_fromOldest hi⟩
    induction h with
    | callee =>
      unfold fromOldest? at hi
      split at hi <;> cases hi
    | cons _ hfits ih =>
      unfold fromOldest? at hi
      split at hi
      · next heq =>
        rw [heq, hfits.length_eq]
        exact List.length_pos_iff.mpr hfits.ne_nil
      · exact ih hi
  | push _ ih =>
    unfold fromOldest? at hi
    split at hi
    · cases hi
    · exact ih hi

theorem Over.slot {Γ : Layout} {ls : List Local} (h : Over ls Γ) {name : String}
    (hname : name ≠ "") {slot : Nat} {l : Local} (hslot : slotOf? name ls = some (slot, l)) :
    0 < slot ∧ ∃ b, fromOldest? Γ slot = some (.variable b) := by
  induction h with
  | bare h => exact h.slot hname hslot
  | push _ ih =>
    obtain ⟨hpos, b, hb⟩ := ih
    exact ⟨hpos, b, by rw [fromOldest_cons_of_lt (lt_of_fromOldest hb), hb]⟩

theorem Over.replicate {Γ : Layout} {ls : List Local} (h : Over ls Γ) (n : Nat) :
    Over ls (List.replicate n .temporary ++ Γ) := by
  induction n with
  | zero => exact h
  | succ n ih => exact .push ih

/-! ## Locals that can be read -/

/-- The locals without the one whose initializer is being compiled. -/
def ready (ls : List Local) : List Local := ls.dropWhile fun l => l.depth.isNone

theorem raisedAll_ready {ls ls' : List Local} (h : RaisedAll ls ls') :
    RaisedAll (ready ls) (ready ls') := by
  unfold ready
  induction h with
  | nil => exact .nil
  | cons hl hrest ih =>
    rw [List.dropWhile_cons, List.dropWhile_cons, hl.depth]
    split
    · exact ih
    · exact .cons hl hrest

theorem ready_of_forall {ls : List Local} (h : ∀ l ∈ ls, l.depth.isSome) : ready ls = ls := by
  cases ls with
  | nil => rfl
  | cons l ls =>
    refine List.dropWhile_cons_of_neg ?_
    have hl := h l List.mem_cons_self
    simpa [Option.isSome_iff_ne_none] using hl

theorem slotOf_ready {name : String} {ls : List Local} {slot : Nat} {l : Local}
    (h : slotOf? name ls = some (slot, l)) (hl : l.depth.isNone = false) :
    slotOf? name (ready ls) = some (slot, l) := by
  unfold ready
  induction ls with
  | nil => cases h
  | cons a ls ih =>
    rw [List.dropWhile_cons]
    split
    · next ha =>
      unfold slotOf? at h
      split at h
      · cases h
        rw [ha] at hl
        cases hl
      · exact ih h
    · exact h

theorem slotOf_raisedAll {name : String} {ls ls' : List Local} (h : RaisedAll ls ls')
    {slot : Nat} {l : Local} (hl : slotOf? name ls = some (slot, l)) :
    ∃ l', slotOf? name ls' = some (slot, l') := by
  induction h with
  | nil => cases hl
  | @cons a a' ls ls' ha hrest ih =>
    unfold slotOf? at hl ⊢
    rw [ha.name]
    split at hl
    · next hname =>
      cases hl
      exact ⟨a', by rw [if_pos hname, hrest.length_eq]⟩
    · next hname =>
      rw [if_neg hname]
      exact ih hl

/-! ## What stays in a function -/

/-- The one function has all that the code of the other refers to. -/
structure Larger (b b' : Builder) : Prop where
  captures : b.captures <+: b'.captures
  pool : ∀ (k : Nat) (v : Value), b.chunk.constants[k]? = some v →
    b'.chunk.constants[k]? = some v
  size : b.chunk.code.size ≤ b'.chunk.code.size

/-- The code of one function goes on in another one's, with the same locals. -/
structure Kept (b b' : Builder) : Prop extends Larger b b' where
  name : b'.name = b.name
  depth : b'.depth = b.depth
  arity : b'.arity = b.arity
  locals : RaisedAll b.locals b'.locals

theorem Larger.refl (b : Builder) : Larger b b where
  captures := List.prefix_refl _
  pool _ _ h := h
  size := Nat.le_refl _

theorem Larger.trans {b₁ b₂ b₃ : Builder} (h : Larger b₁ b₂) (k : Larger b₂ b₃) :
    Larger b₁ b₃ where
  captures := List.IsPrefix.trans h.captures k.captures
  pool i v hv := k.pool i v (h.pool i v hv)
  size := Nat.le_trans h.size k.size

theorem Kept.refl (b : Builder) : Kept b b := ⟨.refl b, rfl, rfl, rfl, RaisedAll.refl _⟩

theorem Kept.trans {b₁ b₂ b₃ : Builder} (h : Kept b₁ b₂) (k : Kept b₂ b₃) : Kept b₁ b₃ where
  toLarger := h.toLarger.trans k.toLarger
  name := k.name.trans h.name
  depth := k.depth.trans h.depth
  arity := k.arity.trans h.arity
  locals := h.locals.trans k.locals

theorem Grown.kept {b b' : Builder} (h : Grown b b') : Kept b b' where
  captures := h.captures
  pool k v hv := by
    rw [h.chunk]
    exact hv
  size := Nat.le_of_eq (by rw [h.chunk])
  name := by rw [h.same]
  depth := by rw [h.same]
  arity := by rw [h.same]
  locals := h.locals

/-- Code and constants may be added. -/
theorem kept_of_code {b : Builder} {c : Chunk Value} {op : Option Opcode}
    (hpool : ∀ (k : Nat) (v : Value), b.chunk.constants[k]? = some v →
      c.constants[k]? = some v)
    (hsize : b.chunk.code.size ≤ c.code.size) :
    Kept b { b with chunk := c, lastOp := op } :=
  ⟨⟨List.prefix_refl _, hpool, hsize⟩, rfl, rfl, rfl, RaisedAll.refl _⟩

theorem getElem_push_of_some {α : Type} {as : Array α} {k : Nat} {a : α}
    (h : as[k]? = some a) (b : α) : (as.push b)[k]? = some a := by
  obtain ⟨hlt, -⟩ := Array.getElem?_eq_some_iff.mp h
  rw [Array.getElem?_push, if_neg (Nat.ne_of_lt hlt), h]

/-! ## Placed code -/

/-- The code of a function under construction. -/
def Builder.code (b : Builder) : Code := ⟨b.chunk, b.captures.length, b.checkpoints⟩

/-- The end of the code, in a layout. -/
def Builder.edge (b : Builder) (Γ : Layout) : Edge := ⟨Γ, b.lastOp = some .return⟩

/-- The code is a draft that ends in a layout. -/
def Drafted (b : Builder) (Γ : Layout) (labels pending : List (Nat × Layout)) : Prop :=
  ∃ H, Draft b.code H (b.edge Γ) labels pending

/-- The last checkpoint has this many locals.  The callee needs none. -/
def Declares (b : Builder) (n : Nat) : Prop :=
  n ≤ 1 ∨ ∃ m older, b.checkpoints = m :: older ∧ m.offset ≤ b.chunk.code.size ∧
    n ≤ m.locals

/-- The code is a draft, and its end is a place where temporary values stand above
these locals. -/
structure Placed (b : Builder) (ls : List Local) (Γ : Layout)
    (labels pending : List (Nat × Layout)) : Prop where
  above : Over ls Γ
  declares : Declares b ls.length
  drafted : Drafted b Γ labels pending

/-- A finished function is sound: frames that hold the callee and the arguments
can start it, and its code never runs off its end. -/
def Finished.IsSound (done : Finished) : Prop :=
  ∃ (H : Layouts) (Γ Δ : Layout), Γ.length = done.function.arity + 1 ∧
    Γ.getLast? = some .callee ∧ done.function.chunk.lines.size = done.function.chunk.code.size ∧
    Draft ⟨done.function.chunk, done.function.captureCount, done.checkpoints⟩ H ⟨Δ, True⟩
      [(0, Γ)] []

theorem Declares.larger {b b' : Builder} {n : Nat} (h : Declares b n) (hlarger : Larger b b')
    (hmarks : b'.checkpoints = b.checkpoints) : Declares b' n := by
  rcases h with h | ⟨m, older, hm, hoff, hn⟩
  · exact .inl h
  · exact .inr ⟨m, older, hmarks.trans hm, Nat.le_trans hoff hlarger.size, hn⟩

theorem Declares.le {b : Builder} {n k : Nat} (h : Declares b n) (hle : k ≤ n) :
    Declares b k := by
  rcases h with h | ⟨m, older, hm, hoff, hn⟩
  · exact .inl (Nat.le_trans hle h)
  · exact .inr ⟨m, older, hm, hoff, Nat.le_trans hle hn⟩

/-- Variables are declared before they are used. -/
theorem Placed.declared {b : Builder} {ls : List Local} {Γ : Layout}
    {labels pending : List (Nat × Layout)} (h : Placed b ls Γ labels pending) {i : Nat}
    {κ : Bool} (hi : fromOldest? Γ i = some (.variable κ)) :
    0 < i ∧ i < localsAt b.checkpoints b.chunk.code.size := by
  obtain ⟨hpos, hlt⟩ := h.above.variable_lt hi
  refine ⟨hpos, ?_⟩
  rcases h.declares with hle | ⟨m, older, hm, hoff, hn⟩
  · omega
  · rw [hm, localsAt, if_pos hoff]
    omega

/-! ## What stays in a state -/

namespace State

/-- What the code of a part of a function leaves as it was. -/
structure Stays (s t : State) : Prop where
  builder : Kept s.builder t.builder
  around : GrownAll s.around t.around
  sound : (∀ done ∈ s.finished, done.IsSound) → ∀ done ∈ t.finished, done.IsSound

theorem Stays.refl (s : State) : Stays s s := ⟨.refl _, GrownAll.refl _, fun h => h⟩

theorem Stays.trans {s t u : State} (h : Stays s t) (k : Stays t u) : Stays s u :=
  ⟨h.builder.trans k.builder, h.around.trans k.around, fun hs => k.sound (h.sound hs)⟩

theorem Edit.stays {s t : State} (h : Edit s t) (hs : s.Sane) (ht : t.IsQuiet) :
    Stays s t := by
  have hwrite : ∀ {c : Chunk Value} {op : Option Opcode} {work : Nat}
      {defects : List Defect},
      c.constants = s.builder.chunk.constants →
      s.builder.chunk.code.size ≤ c.code.size →
      Stays s (s.withBuilder { s.builder with chunk := c, lastOp := op } work defects) :=
    fun hconstants hsize => ⟨kept_of_code (fun k v hv => hconstants ▸ hv) hsize,
      GrownAll.refl _, fun h => h⟩
  cases h with
  | tick => exact ⟨.refl _, GrownAll.refl _, fun h => h⟩
  | read =>
    obtain ⟨t, rest, heq, -⟩ := read_eq hs ht
    rw [heq]
    exact ⟨.refl _, GrownAll.refl _, fun h => h⟩
  | complain => exact absurd ht (not_isQuiet_complainAt hs _ _)
  | note => exact ⟨.refl _, GrownAll.refl _, fun h => h⟩
  | append =>
    refine hwrite ?_ ?_
    · rfl
    · simp [Chunk.append]
  | setLastOp =>
    refine hwrite ?_ ?_
    · rfl
    · exact Nat.le_refl _
  | openJump =>
    refine hwrite ?_ ?_
    · rfl
    · exact Nat.le_trans (Nat.le_add_right _ 2)
        (Nat.le_of_eq (Chunk.size_code_openJump ..).symm)
  | landJump operand =>
    obtain ⟨byte, defects, -, heq⟩ := landJump_eq hs ht
    rw [heq]
    refine hwrite ?_ ?_
    · rfl
    · simp
  | loopBack start =>
    obtain ⟨byte, defects, -, heq⟩ := loopBack_eq hs ht
    rw [heq]
    refine hwrite ?_ ?_
    · rfl
    · exact Nat.le_trans (Nat.le_add_right _ 2)
        (Nat.le_of_eq (Chunk.size_code_appendWith ..).symm)
  | pool v known =>
    rw [(poolConstant_eq hs ht).2]
    refine ⟨kept_of_code (fun k w hw => ?_) ?_, GrownAll.refl _, fun h => h⟩
    · exact getElem_push_of_some hw v
    · exact Nat.le_refl _
  | capture found hname hfound =>
    have hf := found_captureFrom (hs.named _ List.mem_cons_self hname) hfound hs.roomy
      hs.linked
    exact ⟨hf.inner.kept, hf.around, fun h => h⟩

theorem Edits.stays {s t : State} (h : Edits s t) (hs : s.Sane) (ht : t.IsQuiet) :
    Stays s t := by
  induction h with
  | refl => exact .refl s
  | tail hedits hedit ih =>
    have hq := hedit.isQuiet ht
    exact (ih hq).trans (hedit.stays (Edits.sane hedits hs hq) ht)

end State

/-! ## Writing placed code -/

theorem code_append (c : Chunk Value) (byte : UInt8) (line : Nat) :
    (c.append byte line).code = c.code ++ [byte].toArray := by
  simp [Chunk.append]

theorem code_appendWith (c : Chunk Value) (op : Opcode) (operand : UInt8) (line : Nat) :
    (c.appendWith op operand line).code = c.code ++ [op.toByte, operand].toArray := by
  apply Array.ext'
  simp [Chunk.appendWith, Chunk.appendOp, Chunk.append]

section Builders

variable {b b' : Builder} {ls ls' : List Local} {Γ Γ' : Layout}
  {labels labels' pending pending' : List (Nat × Layout)}

theorem Larger.provides (h : Larger b b') : b'.code.Provides b.code :=
  ⟨h.pool, h.captures.length_le⟩

/-- Open jumps stand in the code. -/
theorem Placed.pending_le (h : Placed b ls Γ labels pending) {x : Nat × Layout}
    (hx : x ∈ pending) : x.1 ≤ b.chunk.code.size := by
  obtain ⟨H, d⟩ := h.drafted
  exact d.pending_le hx

/-- Constants and captures may be added beside the code, and temporary values may
become variables. -/
theorem Drafted.mono (h : Drafted b Γ labels pending) (hlarger : Larger b b')
    (hcode : b'.chunk.code = b.chunk.code) (hop : b'.lastOp = b.lastOp)
    (hmarks : b'.checkpoints = b.checkpoints) (hlayout : Γ.Widens Γ') :
    Drafted b' Γ' labels pending := by
  obtain ⟨H, d⟩ := h
  have hwidens : (b.edge Γ).layout.Widens (b'.edge Γ').layout := hlayout
  refine ⟨H, d.mono hcode hlarger.provides hmarks hwidens (fun hs => ?_)
    fun x hx => .inl hx⟩
  exact hop.symm.trans hs

theorem Placed.mono (h : Placed b ls Γ labels pending) (hlarger : Larger b b')
    (hcode : b'.chunk.code = b.chunk.code) (hop : b'.lastOp = b.lastOp)
    (hmarks : b'.checkpoints = b.checkpoints) : Placed b' ls Γ labels pending :=
  ⟨h.above, h.declares.larger hlarger hmarks,
    h.drafted.mono hlarger hcode hop hmarks (Layout.Widens.refl Γ)⟩

/-- The end of the code may become a label, and labels may be forgotten. -/
theorem Placed.relabel (h : Placed b ls Γ labels pending)
    (hlabels : ∀ x ∈ labels', x ∈ labels ∨ x = (b.chunk.code.size, Γ)) :
    Placed b ls Γ labels' pending := by
  obtain ⟨H, d⟩ := h.drafted
  have hlayout : (b.edge Γ).layout.Widens (b.edge Γ).layout := Layout.Widens.refl Γ
  refine ⟨h.above, h.declares, H, ?_⟩
  exact d.mono rfl ⟨fun k v hv => hv, Nat.le_refl _⟩ rfl hlayout (fun hs => hs) hlabels

/-- An instruction is written, whatever stands in the slots behind it. -/
theorem Placed.write (h : Placed b ls Γ labels pending) (op : Opcode) (operands : List UInt8)
    {after : List (Nat × Layout)} (hlarger : Larger b b')
    (hmarks : b'.checkpoints = b.checkpoints)
    (hcode : b'.chunk.code = b.chunk.code ++ (op.toByte :: operands).toArray)
    (hop : b'.lastOp = some op)
    (heff : Effect b.chunk.constants b.captures.length
      (b.chunk.code.size + 1 + operands.length) op operands Γ after)
    (hafter : ∀ x ∈ after,
      (x = (b.chunk.code.size + 1 + operands.length, Γ') ∧ op ≠ .return) ∨ x ∈ labels) :
    Drafted b' Γ' labels pending := by
  obtain ⟨H, d⟩ := h.drafted
  have hsize : b'.code.size = b.chunk.code.size + 1 + operands.length := by
    simp [Code.size, Builder.code, hcode]
    omega
  have heff' : Effect b'.code.chunk.constants b'.code.captureCount b'.code.size op operands
      (b.edge Γ).layout after := by
    rw [hsize]
    exact heff.mono hlarger.pool hlarger.captures.length_le
  refine ⟨_, d.emit hcode hlarger.provides hmarks (fun i κ hi => h.declared hi) heff'
    (fun x hx => ?_) fun hs => ?_⟩
  · refine (hafter x hx).imp_left fun hnext => ⟨?_, fun hs => hnext.2 ?_⟩
    · rw [hsize]
      exact hnext.1
    · exact Option.some.inj (hop.symm.trans hs)
  · obtain rfl : op = .return := Option.some.inj (hop.symm.trans hs)
    exact ⟨rfl, heff.operands_return⟩

/-- An instruction is written, behind which the frame holds locals and temporary
values. -/
theorem Placed.emit (h : Placed b ls Γ labels pending) (op : Opcode) (operands : List UInt8)
    {after : List (Nat × Layout)} (hlarger : Larger b b')
    (hmarks : b'.checkpoints = b.checkpoints)
    (hcode : b'.chunk.code = b.chunk.code ++ (op.toByte :: operands).toArray)
    (hop : b'.lastOp = some op)
    (heff : Effect b.chunk.constants b.captures.length
      (b.chunk.code.size + 1 + operands.length) op operands Γ after)
    (hafter : ∀ x ∈ after,
      (x = (b.chunk.code.size + 1 + operands.length, Γ') ∧ op ≠ .return) ∨ x ∈ labels)
    (hover : Over ls' Γ') (hle : ls'.length ≤ ls.length) :
    Placed b' ls' Γ' labels pending :=
  ⟨hover, (h.declares.larger hlarger hmarks).le hle,
    h.write op operands hlarger hmarks hcode hop heff hafter⟩

/-- A jump is opened. -/
theorem Placed.open (h : Placed b ls Γ labels pending) (op : Opcode) (byte : UInt8)
    (hlarger : Larger b b') (hmarks : b'.checkpoints = b.checkpoints)
    (hcode : b'.chunk.code = b.chunk.code ++ [op.toByte, byte].toArray)
    (hlast : b'.lastOp = some op)
    (hop : op = .jump ∨
      (op = .jumpIfFalse ∧ (∃ Δ, Γ = .temporary :: Δ) ∧ Γ' = Γ))
    (hover : Over ls Γ') :
    Placed b' ls Γ' labels ((b.chunk.code.size + 1, Γ) :: pending) := by
  obtain ⟨H, d⟩ := h.drafted
  refine ⟨hover, h.declares.larger hlarger hmarks, _, d.openJump hcode hlarger.provides
    hmarks (fun i κ hi => h.declared hi) (hop.imp_right ?_) fun hs => ?_⟩
  · rintro ⟨rfl, hΔ, rfl⟩
    exact ⟨rfl, hΔ, rfl⟩
  · obtain rfl : op = .return := Option.some.inj (hlast.symm.trans hs)
    rcases hop with hop | ⟨hop, -⟩ <;> cases hop

/-- A jump is landed. -/
theorem Placed.land (h : Placed b ls Γ labels pending) {p : Nat} {byte : UInt8}
    (hlarger : Larger b b') (hmarks : b'.checkpoints = b.checkpoints)
    (hchunk : b'.chunk = { b.chunk with code := b.chunk.code.setIfInBounds p byte })
    (hcaptures : b'.captures = b.captures) (hlast : b'.lastOp = none)
    (hbyte : byte.toNat = b.chunk.code.size - p - 1) (hmem : (p, Γ) ∈ pending)
    (hp : ∀ x ∈ pending, x.1 = p → x.2 = Γ)
    (hpending : ∀ x, x ∈ pending' ↔ x ∈ pending ∧ x.1 ≠ p) :
    Placed b' ls Γ labels pending' := by
  obtain ⟨H, d⟩ := h.drafted
  refine ⟨h.above, h.declares.larger hlarger hmarks, H, d.landJump hmem hbyte hchunk ?_
    hmarks rfl ?_ (fun x hx hxp => ?_) hpending⟩
  · exact congrArg List.length hcaptures
  · intro hs
    cases hlast.symm.trans hs
  · rw [hp x hx hxp]
    exact .refl Γ

end Builders

namespace State

section States

variable {s : State} {ls : List Local} {Γ Γ' : Layout}
  {labels labels' pending pending' : List (Nat × Layout)}

/-- An opcode is written that goes on behind itself. -/
theorem placed_appendOp (h : Placed s.builder ls Γ labels pending) (op : Opcode)
    (heff : ∀ next, Effect s.builder.chunk.constants s.builder.captures.length next op []
      Γ [(next, Γ')])
    (hop : op ≠ .return) (hover : Over ls Γ') :
    Placed (s.appendOp op).builder ls Γ' labels pending := by
  refine h.emit op [] (kept_of_code ?_ ?_).toLarger rfl ?_ rfl (heff _) ?_ hover
    (Nat.le_refl _)
  · exact fun k v hv => hv
  · exact Nat.le_trans (Nat.le_succ _) (Nat.le_of_eq (Array.size_push ..).symm)
  · exact code_append ..
  · exact fun x hx => .inl ⟨List.mem_singleton.mp hx, hop⟩

/-- The code returns here. -/
theorem placed_return {Δ : Layout} (h : Placed s.builder ls (.temporary :: Δ) labels pending)
    (hover : Over ls Γ') : Placed (s.appendOp .return).builder ls Γ' labels pending := by
  refine h.emit .return [] (kept_of_code ?_ ?_).toLarger rfl ?_ rfl .return ?_ hover
    (Nat.le_refl _)
  · exact fun k v hv => hv
  · exact Nat.le_trans (Nat.le_succ _) (Nat.le_of_eq (Array.size_push ..).symm)
  · exact code_append ..
  · exact fun x hx => absurd hx List.not_mem_nil

theorem builder_appendWith (s : State) (op : Opcode) (n : Nat) :
    (s.appendWith op n).builder =
      { s.builder with
        chunk := s.builder.chunk.appendWith op n.toUInt8 s.previous.line
        lastOp := some op } := by
  unfold appendWith appendNumber guarantee
  split <;> rfl

/-- An opcode is written with a number, and goes on behind itself. -/
theorem placed_appendWith (h : Placed s.builder ls Γ labels pending) (op : Opcode) (n : Nat)
    (heff : ∀ next, Effect s.builder.chunk.constants s.builder.captures.length next op
      [n.toUInt8] Γ [(next, Γ')])
    (hop : op ≠ .return) (hover : Over ls Γ') :
    Placed (s.appendWith op n).builder ls Γ' labels pending := by
  rw [builder_appendWith]
  refine h.emit op [n.toUInt8] (kept_of_code ?_ ?_).toLarger rfl ?_ rfl (heff _) ?_ hover
    (Nat.le_refl _)
  · exact fun k v hv => hv
  · exact Nat.le_trans (Nat.le_add_right _ 2)
      (Nat.le_of_eq (Chunk.size_code_appendWith ..).symm)
  · exact code_appendWith ..
  · exact fun x hx => .inl ⟨List.mem_singleton.mp hx, hop⟩

theorem codeSize_openJump (s : State) (op : Opcode) :
    (s.openJump op).2.codeSize = s.codeSize + 2 :=
  Chunk.size_code_openJump ..

/-- The jump that is opened next is none of the open ones. -/
theorem ne_next (h : Placed s.builder ls Γ labels pending) :
    ∀ x ∈ pending, x.1 ≠ s.codeSize + 1 := by
  intro x hx
  have hle : x.1 ≤ s.codeSize := h.pending_le hx
  omega

theorem placed_openJump (h : Placed s.builder ls Γ labels pending) (op : Opcode)
    (hop : op = .jump ∨ (op = .jumpIfFalse ∧ (∃ Δ, Γ = .temporary :: Δ) ∧ Γ' = Γ))
    (hover : Over ls Γ') :
    Placed (s.openJump op).2.builder ls Γ' labels ((s.codeSize + 1, Γ) :: pending) := by
  refine h.open op 0xff (kept_of_code ?_ ?_).toLarger rfl ?_ rfl hop hover
  · exact fun k v hv => hv
  · exact Nat.le_trans (Nat.le_add_right _ 2)
      (Nat.le_of_eq (Chunk.size_code_openJump ..).symm)
  · exact code_appendWith ..

theorem placed_landJump (hs : s.Sane) {p : Nat} (hq : (s.landJump p).IsQuiet)
    (h : Placed s.builder ls Γ labels pending) (hmem : (p, Γ) ∈ pending)
    (hp : ∀ x ∈ pending, x.1 = p → x.2 = Γ)
    (hpending : ∀ x, x ∈ pending' ↔ x ∈ pending ∧ x.1 ≠ p) :
    Placed (s.landJump p).builder ls Γ labels pending' := by
  obtain ⟨byte, defects, hbyte, heq⟩ := landJump_eq hs hq
  rw [heq]
  refine h.land (kept_of_code ?_ ?_).toLarger rfl rfl rfl rfl hbyte hmem hp hpending
  · exact fun k v hv => hv
  · simp

/-- The jump that was opened last is landed. -/
theorem placed_landNewest (hs : s.Sane) {p : Nat} (hq : (s.landJump p).IsQuiet)
    (h : Placed s.builder ls Γ labels ((p, Γ) :: pending)) (hp : ∀ x ∈ pending, x.1 ≠ p) :
    Placed (s.landJump p).builder ls Γ labels pending := by
  refine placed_landJump hs hq h List.mem_cons_self (fun x hx hxp => ?_) fun x => ⟨fun hx => ?_, ?_⟩
  · rcases List.mem_cons.mp hx with rfl | hx
    · rfl
    · exact absurd hxp (hp x hx)
  · exact ⟨List.mem_cons_of_mem _ hx, hp x hx⟩
  · rintro ⟨hx, hne⟩
    rcases List.mem_cons.mp hx with rfl | hx
    · exact absurd rfl hne
    · exact hx

/-- The jump that was opened last but one is landed. -/
theorem placed_landOlder (hs : s.Sane) {p : Nat} {newest : Nat × Layout}
    (hq : (s.landJump p).IsQuiet)
    (h : Placed s.builder ls Γ labels (newest :: (p, Γ) :: pending)) (hnewest : newest.1 ≠ p)
    (hp : ∀ x ∈ pending, x.1 ≠ p) :
    Placed (s.landJump p).builder ls Γ labels (newest :: pending) := by
  refine placed_landJump hs hq h (List.mem_cons_of_mem _ List.mem_cons_self) (fun x hx hxp => ?_)
    fun x => ⟨fun hx => ?_, ?_⟩
  · rcases List.mem_cons.mp hx with rfl | hx
    · exact absurd hxp hnewest
    · rcases List.mem_cons.mp hx with rfl | hx
      · rfl
      · exact absurd hxp (hp x hx)
  · rcases List.mem_cons.mp hx with rfl | hx
    · exact ⟨List.mem_cons_self, hnewest⟩
    · exact ⟨List.mem_cons_of_mem _ (List.mem_cons_of_mem _ hx), hp x hx⟩
  · rintro ⟨hx, hne⟩
    rcases List.mem_cons.mp hx with rfl | hx
    · exact List.mem_cons_self
    · rcases List.mem_cons.mp hx with rfl | hx
      · exact absurd rfl hne
      · exact List.mem_cons_of_mem _ hx

theorem placed_loopBack (hs : s.Sane) {start : Nat} (hq : (s.loopBack start).IsQuiet)
    (h : Placed s.builder ls Γ labels pending) (hlabel : (start, Γ) ∈ labels)
    (hstart : start ≤ s.codeSize) (hover : Over ls Γ') :
    Placed (s.loopBack start).builder ls Γ' labels pending := by
  obtain ⟨byte, defects, hbyte, heq⟩ := loopBack_eq hs hq
  rw [heq]
  refine h.emit .loop [byte] (kept_of_code ?_ ?_).toLarger rfl ?_ rfl (.loop ?_) ?_ hover
    (Nat.le_refl _)
  · exact fun k v hv => hv
  · exact Nat.le_trans (Nat.le_add_right _ 2)
      (Nat.le_of_eq (Chunk.size_code_appendWith ..).symm)
  · exact code_appendWith ..
  · unfold codeSize at hbyte
    simp
    omega
  · intro x hx
    have hback : s.builder.chunk.code.size + 1 + 1 - byte.toNat = start := by
      unfold codeSize at hbyte hstart
      omega
    rw [List.mem_singleton.mp hx]
    exact .inr (hback ▸ hlabel)

theorem placed_poolConstant (hs : s.Sane) {v : Value} (hq : (s.poolConstant v).2.IsQuiet)
    (h : Placed s.builder ls Γ labels pending) :
    Placed (s.poolConstant v).2.builder ls Γ labels pending := by
  rw [(poolConstant_eq hs hq).2]
  refine h.mono (kept_of_code ?_ ?_).toLarger rfl rfl rfl
  · exact fun k w hw => getElem_push_of_some hw v
  · exact Nat.le_refl _

theorem builder_read (hs : s.Sane) (hq : s.read.IsQuiet) : s.read.builder = s.builder := by
  obtain ⟨t, rest, heq, -⟩ := read_eq hs hq
  rw [heq]

theorem builder_require (hs : s.Sane) {k : TokenKind} {what : Expected}
    (hq : (s.require k what).IsQuiet) : (s.require k what).builder = s.builder := by
  obtain ⟨-, heq⟩ := require_eq hs hq
  rw [heq] at hq ⊢
  exact builder_read hs hq

end States

end State

end ScriptEngine.Compile
