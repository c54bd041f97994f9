import ScriptEngine.Proofs.Abreast.State
set_option autoImplicit false

/-!
# Two compilations abreast: code

Whatever one side writes, the other one writes as well, with jumps over the same distances
and with constants at their own places.  A number that one operation gives to a later one
is pinned to the ledger in between.
-/

namespace ScriptEngine.Compile

open State

/-- A constant that is pooled without a complaint has an index that fits in a byte. -/
theorem State.room_of_isQuiet {s : State} (h : s.isRecovering = false) {v : Value}
    (hq : (s.poolConstant v).2.IsQuiet) : s.builder.chunk.constants.size < byteRange := by
  by_contra hfull
  unfold poolConstant Chunk.pushConstant at hq
  dsimp only at hq
  rw [if_neg hfull] at hq
  simp [complain, complainAt, withChunk, h, IsQuiet] at hq

/-- What an opcode with a number adds to the code. -/
theorem State.appendWith_eq (s : State) (op : Opcode) (k : Nat) :
    ∃ defects, s.appendWith op k = s.withBuilder
      { s.builder with
        chunk := s.builder.chunk.appendWith op k.toUInt8 s.previous.line
        lastOp := some op } s.work defects := by
  obtain ⟨defects, hd⟩ := guarantee_eq (s.appendOp op) (k < byteRange) .byteOverflow
  refine ⟨defects, ?_⟩
  unfold appendWith appendNumber
  rw [hd]
  rfl

section Code

variable {σ : Latitude} {n : Nat} {l l' : Ledger} {ls : List Ledger} {s s' : State}

namespace Latitude.Corresponds

theorem builder (h : σ.Corresponds n (l :: ls) s s') :
    l.Relates (σ.matching s.nextId) s.builder s'.builder := by
  cases h.builders with
  | cons head => exact head

theorem around (h : σ.Corresponds n (l :: ls) s s') :
    Ledger.RelatesAll (σ.matching s.nextId) ls s.around s'.around := by
  cases h.builders with
  | cons _ tail => exact tail

/-- What a pinned number means. -/
theorem holds (h : σ.Corresponds n (l :: ls) s s') {p : Pin} (hp : p ∈ l.pins) :
    ∃ is : List Item, p.Holds l is :=
  h.builder.chunk.holds hp

theorem withBuilder (h : σ.Corresponds n (l :: ls) s s') {b b' : Builder}
    (hb : l'.Relates (σ.matching s.nextId) b b') (hcode : l'.code = l.code)
    (hpool : l'.pool = l.pool) (work work' : Nat) (defects defects' : List Defect) :
    σ.Corresponds n (l' :: ls) (s.withBuilder b work defects)
      (s'.withBuilder b' work' defects') :=
  { h with
    builders := .cons hb h.around
    plain := fun hstrict => List.forall_mem_cons.mpr
      ⟨by rw [hcode, hpool]; exact h.plain hstrict l List.mem_cons_self,
        (List.forall_mem_cons.mp (h.plain hstrict)).2⟩ }

/-- Code is written on both sides. -/
theorem withCode (h : σ.Corresponds n (l :: ls) s s') {c c' : Chunk Value}
    {pins : List Pin}
    (hc : { l with pins := pins }.RelatesChunks (σ.matching s.nextId) c c')
    {op op' : Option Opcode}
    (hop : op' = some .return ↔ op = some .return) (work work' : Nat)
    (defects defects' : List Defect) :
    σ.Corresponds n ({ l with pins := pins } :: ls)
      (s.withBuilder { s.builder with chunk := c, lastOp := op } work defects)
      (s'.withBuilder { s'.builder with chunk := c', lastOp := op' } work' defects') := by
  have hb := h.builder
  have hrelates : { l with pins := pins }.Relates (σ.matching s.nextId)
      { s.builder with chunk := c, lastOp := op }
      { s'.builder with chunk := c', lastOp := op' } :=
    ⟨hb.name, hb.arity, hb.locals, hb.depth, hb.depth', hb.captures, hop, hc⟩
  exact h.withBuilder hrelates rfl rfl ..

end Latitude.Corresponds

namespace Latitude.Abreast

/-! ## Pins -/

theorem pin {p : Pin} (h : σ.Abreast n (l :: ls) s s')
    (hp : σ.Corresponds n (l :: ls) s s' → ∀ is : List Item,
      s.builder.chunk.code.toList = codeOf is → p.Holds l is) :
    σ.Abreast n (l.pin p :: ls) s s' := fun hc => by
  have hr := h hc
  exact { hr with
    builders := .cons { hr.builder with chunk := hr.builder.chunk.pin (hp hr) } hr.around
    plain := fun hstrict => List.forall_mem_cons.mpr
      (List.forall_mem_cons.mp (hr.plain hstrict)) }

theorem repin {pins : List Pin} (h : σ.Abreast n (l :: ls) s s') (hpins : pins ⊆ l.pins) :
    σ.Abreast n ({ l with pins := pins } :: ls) s s' := fun hc => by
  have hr := h hc
  exact { hr with
    builders := .cons { hr.builder with chunk := hr.builder.chunk.repin hpins } hr.around
    plain := fun hstrict => List.forall_mem_cons.mpr
      (List.forall_mem_cons.mp (hr.plain hstrict)) }

theorem unpin {p : Pin} (h : σ.Abreast n (l.pin p :: ls) s s') : σ.Abreast n (l :: ls) s s' :=
  h.repin (List.subset_cons_self p l.pins)

/-- Both sides remember where they are. -/
theorem pinOffset (h : σ.Abreast n (l :: ls) s s') :
    σ.Abreast n (l.pin (.offset s.codeSize s'.codeSize) :: ls) s s' :=
  h.pin fun hr _ _ => hr.builder.chunk.size

/-! ## Writing -/

theorem appendOp (h : σ.Abreast n (l :: ls) s s') (op : Opcode) (hop : op.operandBytes = 0) :
    σ.Abreast n (l :: ls) (s.appendOp op) (s'.appendOp op) := fun hc => by
  have hr := h hc
  exact hr.withCode (hr.builder.chunk.appendOp hop hr.previous.line) Iff.rfl
    s.work s'.work s.defects s'.defects

theorem withLastOp (h : σ.Abreast n (l :: ls) s s') (op : Option Opcode) :
    σ.Abreast n (l :: ls) (s.withLastOp op) (s'.withLastOp op) := fun hc => by
  have hr := h hc
  exact hr.withCode hr.builder.chunk Iff.rfl s.work s'.work s.defects s'.defects

/-- A number is written behind an opcode, where it means the same on both sides. -/
theorem appendWith (h : σ.Abreast n (l :: ls) s s') (op : Opcode) (hop : op.TakesByte)
    {k k' : Nat} (hk : σ.Corresponds n (l :: ls) s s' →
      k' = if op.namesConstant then k + l.pool.length else k) :
    σ.Abreast n (l :: ls) (s.appendWith op k) (s'.appendWith op k') := by
  refine h.branch (edits_appendWith ..).actions (edits_appendWith ..).actions fun hr _ => ?_
  obtain ⟨defects, heq⟩ := s.appendWith_eq op k
  obtain ⟨defects', heq'⟩ := s'.appendWith_eq op k'
  have hoperand : k'.toUInt8 =
      if op.namesConstant then k.toUInt8 + l.pool.length.toUInt8 else k.toUInt8 := by
    rw [hk hr]
    split
    · exact UInt8.ofNat_add ..
    · rfl
  rw [heq, heq']
  exact hr.withCode (hr.builder.chunk.appendWith hop hoperand hr.previous.line []
    (List.forall_mem_nil _)) Iff.rfl s.work s'.work defects defects'

/-- The count is written that was pinned. -/
theorem appendCount (h : σ.Abreast n (l :: ls) s s') {op : Opcode}
    (hop : op.TakesByte) (hnames : op.namesConstant = false) {k k' : Nat}
    (hk : .count k k' ∈ l.pins) :
    σ.Abreast n (l :: ls) (s.appendWith op k) (s'.appendWith op k') :=
  h.appendWith op hop fun hr => by
    obtain ⟨_, rfl⟩ := hr.holds hk
    rw [hnames]
    rfl

/-- An instruction is written for a place that was pinned. -/
theorem appendPlace (h : σ.Abreast n (l :: ls) s s') {p p' : Place}
    (hp : .place p p' ∈ l.pins) {opOf : Place → Opcode}
    (hop : ∀ (p : Place) (k : Nat), opOf (p.shift k) = opOf p)
    (hbyte : ∀ p : Place, (opOf p).TakesByte)
    (hnames : ∀ p : Place, (opOf p).namesConstant = true ↔ ∃ c, p = .global c) :
    σ.Abreast n (l :: ls) (s.appendWith (opOf p) p.operand)
      (s'.appendWith (opOf p') p'.operand) := by
  refine h.branch (edits_appendWith ..).actions (edits_appendWith ..).actions fun hr => ?_
  obtain ⟨_, rfl⟩ := hr.holds hp
  rw [hop]
  refine h.appendWith _ (hbyte p) fun _ => ?_
  cases p with
  | global c => rw [if_pos ((hnames _).mpr ⟨c, rfl⟩)]; rfl
  | _ => rw [if_neg fun hn => by simpa using (hnames _).mp hn]; rfl

theorem appendGet (h : σ.Abreast n (l :: ls) s s') {p p' : Place} (hp : .place p p' ∈ l.pins) :
    σ.Abreast n (l :: ls) (s.appendWith p.getOp p.operand)
      (s'.appendWith p'.getOp p'.operand) :=
  h.appendPlace hp (fun p k => by cases p <;> rfl)
    (fun p => by cases p <;> exact ⟨rfl, nofun⟩) fun p => by
    cases p <;> simp [Place.getOp, Opcode.namesConstant]

theorem appendSet (h : σ.Abreast n (l :: ls) s s') {p p' : Place} (hp : .place p p' ∈ l.pins) :
    σ.Abreast n (l :: ls) (s.appendWith p.setOp p.operand)
      (s'.appendWith p'.setOp p'.operand) :=
  h.appendPlace hp (fun p k => by cases p <;> rfl)
    (fun p => by cases p <;> exact ⟨rfl, nofun⟩) fun p => by
    cases p <;> simp [Place.setOp, Opcode.namesConstant]

/-- A constant that was pinned is named. -/
theorem appendConstant (h : σ.Abreast n (l :: ls) s s') (op : Opcode) (hop : op.TakesByte)
    (hnames : op.namesConstant = true) {c c' : Nat}
    (hc : .place (.global c) (.global c') ∈ l.pins) :
    σ.Abreast n (l :: ls) (s.appendWith op c) (s'.appendWith op c') :=
  h.appendWith op hop fun hr => by
    obtain ⟨_, hplace⟩ := hr.holds hc
    rw [if_pos hnames]
    exact Place.global.inj hplace

/-! ## Jumps -/

/-- A jump is written on both sides, and both remember where it is to be landed. -/
theorem openJump (h : σ.Abreast n (l :: ls) s s') (op : Opcode) (hop : op.TakesByte)
    (hnames : op.namesConstant = false) :
    σ.Abreast n (l.pin (.jump (s.openJump op).1 (s'.openJump op).1) :: ls)
      (s.openJump op).2 (s'.openJump op).2 := fun hc => by
  have hr := h hc
  exact hr.withCode (hr.builder.chunk.openJump hnames hop hr.previous.line) Iff.rfl
    s.work s'.work s.defects s'.defects

/-- A jump that is pinned is landed on both sides, if it is not too long. -/
theorem landJump (h : σ.Abreast n (l :: ls) s s') {p p' : Nat} (hp : .jump p p' ∈ l.pins) :
    σ.Abreast n (l :: ls) (s.landJump p) (s'.landJump p') := by
  have hland := (Edit.landJump s p).edits.actions
  have hland' := (Edit.landJump s' p').edits.actions
  refine h.branch hland hland' fun hr => ?_
  obtain ⟨_, -, hpp⟩ := hr.holds hp
  have hdistance : s'.builder.chunk.code.size - p' - 1 = s.builder.chunk.code.size - p - 1 := by
    have hsize := hr.builder.chunk.size
    omega
  unfold State.landJump Chunk.landJump
  obtain ⟨defects, hd⟩ := guarantee_eq s (p < s.codeSize) .landedNoJump
  obtain ⟨defects', hd'⟩ := guarantee_eq s' (p' < s'.codeSize) .landedNoJump
  have hguarded := h.guarantee (p < s.codeSize) (p' < s'.codeSize) .landedNoJump .landedNoJump
  dsimp only [State.withBuilder, builder_guarantee]
  rw [builder_guarantee, builder_guarantee, hdistance]
  cases Chunk.distanceByte (s.builder.chunk.code.size - p - 1) with
  | ok byte =>
    rw [hd, hd']
    exact fun _ => hr.withCode (hr.builder.chunk.land hp byte) (by simp) s.work s'.work
      defects defects'
  | error _ => exact (hguarded.complain .jumpTooLong).withLastOp none

/-- A loop is closed on both sides, if it is not too long. -/
theorem loopBack (h : σ.Abreast n (l :: ls) s s') {o o' : Nat} (ho : .offset o o' ∈ l.pins) :
    σ.Abreast n (l :: ls) (s.loopBack o) (s'.loopBack o') := by
  have hback := (Edit.loopBack s o).edits.actions
  have hback' := (Edit.loopBack s' o').edits.actions
  refine h.branch hback hback' fun hr => ?_
  obtain ⟨_, hoo⟩ : ∃ _ : List Item, o' = o + l.code.length := hr.holds ho
  have hdistance : s'.builder.chunk.code.size + 2 - o' = s.builder.chunk.code.size + 2 - o := by
    have hsize := hr.builder.chunk.size
    omega
  have hguarded := h.guarantee (o ≤ s.codeSize) (o' ≤ s'.codeSize) .loopStartsLate
    .loopStartsLate
  have hwritten : ∀ byte : UInt8, σ.Abreast n (l :: ls)
      (((s.guarantee (o ≤ s.codeSize) .loopStartsLate).withChunk
        (s.builder.chunk.appendWith .loop byte s.previous.line)).withLastOp (some .loop))
      (((s'.guarantee (o' ≤ s'.codeSize) .loopStartsLate).withChunk
        (s'.builder.chunk.appendWith .loop byte s'.previous.line)).withLastOp (some .loop)) := by
    intro byte
    obtain ⟨defects, hd⟩ := guarantee_eq s (o ≤ s.codeSize) .loopStartsLate
    obtain ⟨defects', hd'⟩ := guarantee_eq s' (o' ≤ s'.codeSize) .loopStartsLate
    rw [hd, hd']
    exact fun _ => hr.withCode (hr.builder.chunk.appendWith (by decide) rfl hr.previous.line []
      (List.forall_mem_nil _)) Iff.rfl s.work s'.work defects defects'
  have hline : ∀ (s : State) (b : Bool) (d : Defect),
      (s.guarantee b d).previous = s.previous := by
    intro s b d
    unfold State.guarantee
    split <;> rfl
  unfold State.loopBack Chunk.loopBack
  dsimp only
  rw [builder_guarantee, builder_guarantee, hline, hline, hdistance]
  cases Chunk.distanceByte (s.builder.chunk.code.size + 2 - o) with
  | ok byte => exact hwritten byte
  | error _ => exact (hwritten 0).complain .loopTooLong

/-! ## Constants -/

/-- Constants that match are pooled on both sides, and both remember where. -/
theorem poolConstant (h : σ.Abreast n (l :: ls) s s') {v v' : Value}
    (hv : σ.Corresponds n (l :: ls) s s' → v.Matches (σ.matching s.nextId) v') :
    σ.Abreast n (l.pin (.place (.global (s.poolConstant v).1)
      (.global (s'.poolConstant v').1)) :: ls) (s.poolConstant v).2 (s'.poolConstant v').2 := by
  intro hc
  have hr : σ.Corresponds n (l :: ls) s s' :=
    h (hc.imp_right fun hq => ⟨isQuiet_of_poolConstant hq.1, isQuiet_of_poolConstant hq.2⟩)
  have hsize := hr.builder.chunk.sizeConstants
  have hpool : σ.strict = true → l.pool.length = 0 := fun hstrict => by
    rw [(hr.plain hstrict l List.mem_cons_self).2]
    rfl
  have hpushed : σ.Abreast n (l :: ls) (s.withChunk (s.builder.chunk.pushConstant v).2)
      (s'.withChunk (s'.builder.chunk.pushConstant v').2) := fun _ =>
    hr.withCode (hr.builder.chunk.pushConstant (hv hr)) hr.builder.returns s.work s'.work
      s.defects s'.defects
  by_cases hroom : s.builder.chunk.constants.size < byteRange
  · have hroom' : s'.builder.chunk.constants.size < byteRange := by
      rcases hc with hstrict | ⟨hq, hq'⟩
      · have := hpool hstrict
        omega
      · exact room_of_isQuiet
          (hr.recovering.trans (hr.calm (isQuiet_of_poolConstant hq))) hq'
    revert hc
    unfold State.poolConstant Chunk.pushConstant
    dsimp only
    rw [if_pos hroom, if_pos hroom']
    exact hpushed.pin fun _ _ _ => congrArg Place.global hsize
  · have hroom' : ¬ s'.builder.chunk.constants.size < byteRange := by omega
    have hstrict : σ.strict = true :=
      hc.resolve_right fun hq =>
      hroom (room_of_isQuiet (hr.calm (isQuiet_of_poolConstant hq.1)) hq.1)
    revert hc
    unfold State.poolConstant Chunk.pushConstant
    dsimp only
    rw [if_neg hroom, if_neg hroom']
    refine (hpushed.complain .tooManyConstants).pin fun _ _ _ => congrArg Place.global ?_
    rw [hpool hstrict]

theorem pushLiteral (h : σ.Abreast n (l :: ls) s s') {v : Value}
    (hv : σ.Corresponds n (l :: ls) s s' → v.Matches (σ.matching s.nextId) v) :
    σ.Abreast n (l :: ls) (s.pushLiteral v) (s'.pushLiteral v) :=
  ((h.poolConstant hv).appendConstant .constant (by decide) rfl List.mem_cons_self).unpin

end Latitude.Abreast

end Code

end ScriptEngine.Compile
