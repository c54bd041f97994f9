import ScriptEngine.Proofs.Compile.Action
import ScriptEngine.Proofs.Layout
set_option autoImplicit false

/-!
# Compilation: what every action keeps

As long as nothing is reported, the compiler is in good order (`State.Sane`):
names are not empty, the locals and captures of a function fit in a byte, each
capture refers to a local or a capture of the function around, and the functions
in the pools are finished ones.  Each action keeps this (`Action.sane`), so a
compilation that succeeds was in good order all the time.

`State.left` measures what is left to read.  No action makes it larger, and
reading a token makes it smaller.
-/

namespace ScriptEngine.Compile

/-! ## Good order -/

/-- What a function captures is there in the function around it. -/
def Grounded (outer : Builder) (c : Capture) : Prop :=
  if c.isLocal then
    ∃ l, fromOldest? outer.locals c.index = some l ∧ l.isCaptured = true ∧ l.name ≠ ""
  else c.index < outer.captures.length

/-- The captures of each function are there in the one around it. -/
inductive Linked : Builder → List Builder → Prop where
  | outermost {b : Builder} (none : b.captures = []) : Linked b []
  | inner {b outer : Builder} {around : List Builder}
      (grounded : ∀ c ∈ b.captures, Grounded outer c) (rest : Linked outer around) :
      Linked b (outer :: around)

theorem Linked.congr {b b' : Builder} {around : List Builder} (h : Linked b around)
    (hcaptures : b'.captures = b.captures) : Linked b' around := by
  cases h with
  | outermost hnone => exact .outermost (hcaptures.trans hnone)
  | inner hground hrest => exact .inner (fun c hc => hground c (hcaptures ▸ hc)) hrest

/-- Each local, capture, constant and byte of a function has its number and its line. -/
structure Roomy (b : Builder) : Prop where
  locals : b.locals.length ≤ byteRange
  captures : b.captures.length ≤ byteRange
  constants : b.chunk.constants.size ≤ byteRange
  lines : b.chunk.lines.size = b.chunk.code.size

theorem roomy_start (name : Option String) : Roomy (.start name) where
  locals := by
    show 1 ≤ byteRange
    decide
  captures := Nat.zero_le _
  constants := Nat.zero_le _
  lines := rfl

theorem roomy_empty : Roomy {} where
  locals := Nat.zero_le _
  captures := Nat.zero_le _
  constants := Nat.zero_le _
  lines := rfl

/-- A word can count the bytes of as many captures as there are numbers for. -/
theorem two_mul_lt_of_le_byteRange {n : Nat} (h : n ≤ byteRange) : 2 * n < UInt64.size :=
  Nat.lt_of_le_of_lt (Nat.mul_le_mul_left 2 h) (by decide)

/-! ## Growth of functions around -/

/-- A local may be captured in the meantime, but never the callee. -/
structure Local.Raised (l l' : Local) : Prop where
  name : l'.name = l.name
  depth : l'.depth = l.depth
  isCaptured : l.isCaptured = true → l'.isCaptured = true
  unnamed : l.name = "" → l'.isCaptured = l.isCaptured

theorem Local.Raised.refl (l : Local) : l.Raised l := ⟨rfl, rfl, fun h => h, fun _ => rfl⟩

theorem Local.Raised.trans {l₁ l₂ l₃ : Local} (h : l₁.Raised l₂) (k : l₂.Raised l₃) :
    l₁.Raised l₃ :=
  ⟨k.name.trans h.name, k.depth.trans h.depth, fun hc => k.isCaptured (h.isCaptured hc),
    fun hname => (k.unnamed (h.name.trans hname)).trans (h.unnamed hname)⟩

/-- Locals of which more may be captured in the meantime. -/
abbrev RaisedAll : List Local → List Local → Prop := List.Forall₂ Local.Raised

theorem RaisedAll.refl (ls : List Local) : RaisedAll ls ls :=
  List.forall₂_same.mpr fun l _ => .refl l

theorem RaisedAll.trans {ls₁ ls₂ ls₃ : List Local} (h : RaisedAll ls₁ ls₂)
    (k : RaisedAll ls₂ ls₃) : RaisedAll ls₁ ls₃ := by
  induction h generalizing ls₃ with
  | nil => exact k
  | cons hl _ ih =>
    cases k with
    | cons kl krest => exact .cons (hl.trans kl) (ih krest)

theorem RaisedAll.fromOldest {ls ls' : List Local} (h : RaisedAll ls ls') {i : Nat}
    {l : Local} (hl : fromOldest? ls i = some l) :
    ∃ l', fromOldest? ls' i = some l' ∧ l.Raised l' :=
  fromOldest_forall₂ (R := fun l' l => Local.Raised l l') (List.Forall₂.flip h) hl

theorem raisedAll_capture {name : String} (hname : name ≠ "") (ls : List Local) :
    RaisedAll ls (capture name ls) := by
  induction ls with
  | nil => exact .nil
  | cons l ls ih =>
    unfold capture
    split
    · next hl =>
      exact .cons ⟨rfl, rfl, fun _ => rfl, fun h => absurd (hl.symm.trans h) hname⟩
        (RaisedAll.refl ls)
    · exact .cons (.refl l) ih

/-- The local that a name means is captured under it. -/
theorem fromOldest_capture {name : String} {ls : List Local} {slot : Nat} {l : Local}
    (h : slotOf? name ls = some (slot, l)) :
    ∃ l', fromOldest? (capture name ls) slot = some l' ∧ l'.name = name ∧
      l'.isCaptured = true := by
  induction ls with
  | nil => cases h
  | cons a ls ih =>
    unfold slotOf? at h
    unfold capture
    split at h
    · next hname =>
      cases h
      exact ⟨{ l with isCaptured := true }, by rw [if_pos hname, fromOldest_cons_self],
        hname, rfl⟩
    · next hname =>
      obtain ⟨l', hl', hrest⟩ := ih h
      refine ⟨l', ?_, hrest⟩
      rw [if_neg hname, fromOldest_cons_of_lt (lt_of_fromOldest hl'), hl']

/-- While a function inside is compiled, a function only captures more, and more
of its locals are captured. -/
structure Grown (b b' : Builder) : Prop where
  same : b' = { b with locals := b'.locals, captures := b'.captures }
  locals : RaisedAll b.locals b'.locals
  captures : b.captures <+: b'.captures

theorem Grown.refl (b : Builder) : Grown b b :=
  ⟨rfl, RaisedAll.refl _, List.prefix_refl _⟩

theorem Grown.trans {b₁ b₂ b₃ : Builder} (h : Grown b₁ b₂) (k : Grown b₂ b₃) :
    Grown b₁ b₃ where
  same := by rw [k.same, h.same]
  locals := h.locals.trans k.locals
  captures := List.IsPrefix.trans h.captures k.captures

theorem Grown.chunk {b b' : Builder} (h : Grown b b') : b'.chunk = b.chunk := by
  rw [h.same]

theorem Grown.lastOp {b b' : Builder} (h : Grown b b') : b'.lastOp = b.lastOp := by
  rw [h.same]

theorem Grown.checkpoints {b b' : Builder} (h : Grown b b') :
    b'.checkpoints = b.checkpoints := by
  rw [h.same]

theorem Grown.roomy {b b' : Builder} (h : Grown b b') (hb : Roomy b)
    (hcaptures : b'.captures.length ≤ byteRange) : Roomy b' where
  locals := by
    rw [← h.locals.length_eq]
    exact hb.locals
  captures := hcaptures
  constants := by
    rw [h.chunk]
    exact hb.constants
  lines := by
    rw [h.chunk]
    exact hb.lines

/-- What a function inside captures is still there. -/
theorem Grounded.grow {outer outer' : Builder} {c : Capture} (h : Grounded outer c)
    (hgrown : Grown outer outer') : Grounded outer' c := by
  unfold Grounded at h ⊢
  split
  · next hlocal =>
    rw [if_pos hlocal] at h
    obtain ⟨l, hl, hcap, hname⟩ := h
    obtain ⟨l', hl', hraised⟩ := hgrown.locals.fromOldest hl
    exact ⟨l', hl', hraised.isCaptured hcap, hraised.name ▸ hname⟩
  · next hlocal =>
    rw [if_neg hlocal] at h
    exact Nat.lt_of_lt_of_le h hgrown.captures.length_le

/-- Any two functions that went on in this way. -/
abbrev GrownAll : List Builder → List Builder → Prop := List.Forall₂ Grown

theorem GrownAll.refl (bs : List Builder) : GrownAll bs bs :=
  List.forall₂_same.mpr fun b _ => .refl b

theorem GrownAll.trans {bs₁ bs₂ bs₃ : List Builder} (h : GrownAll bs₁ bs₂)
    (k : GrownAll bs₂ bs₃) : GrownAll bs₁ bs₃ := by
  induction h generalizing bs₃ with
  | nil => exact k
  | cons hb _ ih =>
    cases k with
    | cons kb krest => exact .cons (hb.trans kb) (ih krest)

theorem GrownAll.exists_of_mem {bs bs' : List Builder} (h : GrownAll bs bs')
    {b' : Builder} (hb : b' ∈ bs') : ∃ b ∈ bs, Grown b b' := by
  induction h with
  | nil => cases hb
  | cons hgrown _ ih =>
    rcases List.mem_cons.mp hb with rfl | hb
    · exact ⟨_, List.mem_cons_self, hgrown⟩
    · obtain ⟨b, hmem, hg⟩ := ih hb
      exact ⟨b, List.mem_cons_of_mem _ hmem, hg⟩

/-! ## Looking for a name around -/

theorem addCapture_spec {b b' : Builder} {c : Capture} {i : Nat}
    (h : b.addCapture? c = some (i, b')) (hroom : b.captures.length ≤ byteRange) :
    Grown b b' ∧ b'.captures.length ≤ byteRange ∧ i < b'.captures.length ∧
      ∀ c' ∈ b'.captures, c' ∈ b.captures ∨ c' = c := by
  unfold Builder.addCapture? at h
  split at h
  · next hi =>
    cases h
    refine ⟨.refl _, hroom, ?_, fun c' hc' => .inl hc'⟩
    exact (List.findIdx?_eq_some_iff_findIdx_eq.mp hi).1
  · split at h
    · cases h
    · next hfull =>
      cases h
      refine ⟨⟨rfl, RaisedAll.refl _, List.prefix_append _ _⟩, ?_, ?_, ?_⟩
      · simp
        omega
      · simp
      · simp

/-- Everything about one look-up in the functions around. -/
structure Found (inner : Builder) (around : List Builder) (found : Captured) : Prop where
  inner : Grown inner found.inner
  around : GrownAll around found.around
  linked : Linked found.inner found.around
  roomy : ∀ b ∈ found.inner :: found.around, Roomy b
  index : found.index < found.inner.captures.length

theorem found_captureIn {inner outer outer' : Builder} {around around' : List Builder}
    {c : Capture} {isFull : Bool} (hroomy : Roomy inner)
    (hroomy' : ∀ b ∈ outer' :: around', Roomy b) (hgrown : Grown outer outer')
    (hgrowns : GrownAll around around') (hlinked : Linked outer' around')
    (hcaptures : ∀ c' ∈ inner.captures, Grounded outer c') (hc : Grounded outer' c) :
    Found inner (outer :: around) (captureIn inner (outer' :: around') c isFull) := by
  have hground : ∀ c' ∈ inner.captures, Grounded outer' c' :=
    fun c' hc' => (hcaptures c' hc').grow hgrown
  unfold captureIn
  split
  · next i inner' hadd =>
    obtain ⟨hinner, hroom, hi, hmem⟩ := addCapture_spec hadd hroomy.captures
    refine ⟨hinner, .cons hgrown hgrowns, .inner (fun c' hc' => ?_) hlinked, ?_, hi⟩
    · rcases hmem c' hc' with hold | rfl
      · exact hground c' hold
      · exact hc
    · exact List.forall_mem_cons.mpr ⟨hinner.roomy hroomy hroom, hroomy'⟩
  · next hadd =>
    refine ⟨.refl _, .cons hgrown hgrowns, .inner hground hlinked,
      List.forall_mem_cons.mpr ⟨hroomy, hroomy'⟩, ?_⟩
    -- without room there are as many captures as a byte can tell apart
    unfold Builder.addCapture? at hadd
    split at hadd
    · cases hadd
    · split at hadd
      · next hfull =>
        show 0 < inner.captures.length
        rw [hfull]
        decide
      · cases hadd

theorem found_captureFrom {name : String} (hname : name ≠ "") {around : List Builder} :
    ∀ {inner : Builder} {found : Captured}, captureFrom name inner around = some found →
      (∀ b ∈ inner :: around, Roomy b) → Linked inner around →
      Found inner around found := by
  induction around with
  | nil => intro inner found h _ _; cases h
  | cons outer around ih =>
    intro inner found h hroomy hlinked
    obtain ⟨hinner, hrest⟩ := List.forall_mem_cons.mp hroomy
    obtain ⟨houter, haround⟩ := List.forall_mem_cons.mp hrest
    cases hlinked with
    | inner hcaptures hlinked' =>
    unfold captureFrom at h
    split at h
    · next slot l hslot =>
      cases h
      have hgrown : Grown outer { outer with locals := capture name outer.locals } :=
        ⟨rfl, raisedAll_capture hname _, List.prefix_refl _⟩
      refine found_captureIn hinner ?_ hgrown (GrownAll.refl _) ?_ hcaptures ?_
      · exact List.forall_mem_cons.mpr ⟨hgrown.roomy houter houter.captures, haround⟩
      · exact hlinked'.congr rfl
      · obtain ⟨l', hl', hl'name, hcap⟩ := fromOldest_capture hslot
        exact (if_pos rfl).mpr ⟨l', hl', hcap, hl'name ▸ hname⟩
    · obtain ⟨found', hfound', rfl⟩ := Option.map_eq_some_iff.mp h
      have hf := ih hfound' hrest hlinked'
      exact found_captureIn hinner hf.roomy hf.inner hf.around hf.linked hcaptures
        ((if_neg (by simp)).mpr hf.index)

namespace State

/-- The functions in a pool were finished. -/
def KnowsAll (s : State) (c : Chunk Value) : Prop :=
  ∀ f, .function f ∈ c.constants → s.Knows f

/-- The compiler has found no mistake and is in good order. -/
structure Sane (s : State) : Prop where
  quiet : s.IsQuiet
  calm : s.isRecovering = false
  named : ∀ t ∈ s.previous :: s.current :: s.rest, t.kind = .identifier → t.lexeme ≠ ""
  roomy : ∀ b ∈ s.builder :: s.around, Roomy b
  linked : Linked s.builder s.around
  known : ∀ b ∈ s.builder :: s.around, s.KnowsAll b.chunk
  closed : ∀ done ∈ s.finished, s.KnowsAll done.function.chunk

/-! ## What goes without a diagnostic -/

theorem not_isQuiet_complainAt {s : State} (hs : s.Sane) (t : Token) (c : Complaint) :
    ¬ (s.complainAt t c).IsQuiet := by
  unfold complainAt
  rw [hs.calm]
  simp [IsQuiet]

theorem not_isQuiet_complain {s : State} (hs : s.Sane) (c : Complaint) :
    ¬ (s.complain c).IsQuiet :=
  not_isQuiet_complainAt hs s.previous c

theorem not_isQuiet_complainNext {s : State} (hs : s.Sane) (c : Complaint) :
    ¬ (s.complainNext c).IsQuiet :=
  not_isQuiet_complainAt hs s.current c

/-- The state with other code, for which some work was done. -/
def withBuilder (s : State) (b : Builder) (work : Nat) (defects : List Defect) : State :=
  { s with builder := b, work, defects }

theorem guarantee_eq (s : State) (holds : Bool) (d : Defect) :
    ∃ defects, s.guarantee holds d = s.withBuilder s.builder s.work defects := by
  unfold guarantee
  split
  · exact ⟨s.defects, rfl⟩
  · exact ⟨d :: s.defects, rfl⟩

/-- A jump is landed by filling in its distance, which fits in a byte. -/
theorem landJump_eq {s : State} (hs : s.Sane) {operand : Nat}
    (hq : (s.landJump operand).IsQuiet) :
    ∃ (byte : UInt8) (defects : List Defect),
      byte.toNat = s.codeSize - operand - 1 ∧
      s.landJump operand = s.withBuilder
        { s.builder with
          chunk := { s.builder.chunk with
            code := s.builder.chunk.code.setIfInBounds operand byte }
          lastOp := none } s.work defects := by
  obtain ⟨defects, hd⟩ := guarantee_eq s (operand < s.codeSize) .landedNoJump
  unfold landJump at hq ⊢
  rw [hd] at hq ⊢
  dsimp only [withBuilder] at hq ⊢
  unfold Chunk.landJump Chunk.distanceByte at hq ⊢
  by_cases hlt : s.builder.chunk.code.size - operand - 1 < 256
  · refine ⟨(s.builder.chunk.code.size - operand - 1).toUInt8, defects, ?_, ?_⟩
    · simp [codeSize, UInt8.toNat_ofNat_of_lt' hlt]
    · rw [if_pos hlt]
      rfl
  · rw [if_neg hlt] at hq
    refine absurd hq (not_isQuiet_complain (s := { s with defects := defects }) ?_ _)
    exact ⟨hs.quiet, hs.calm, hs.named, hs.roomy, hs.linked, hs.known, hs.closed⟩

/-- A loop is closed by a jump back, whose distance fits in a byte. -/
theorem loopBack_eq {s : State} (hs : s.Sane) {start : Nat}
    (hq : (s.loopBack start).IsQuiet) :
    ∃ (byte : UInt8) (defects : List Defect),
      byte.toNat = s.codeSize + 2 - start ∧
      s.loopBack start = s.withBuilder
        { s.builder with
          chunk := s.builder.chunk.appendWith .loop byte s.previous.line
          lastOp := some .loop } s.work defects := by
  obtain ⟨defects, hd⟩ := guarantee_eq s (start ≤ s.codeSize) .loopStartsLate
  unfold loopBack at hq ⊢
  rw [hd] at hq ⊢
  dsimp only [withBuilder] at hq ⊢
  unfold Chunk.loopBack Chunk.distanceByte at hq ⊢
  by_cases hlt : s.builder.chunk.code.size + 2 - start < 256
  · refine ⟨(s.builder.chunk.code.size + 2 - start).toUInt8, defects, ?_, ?_⟩
    · simp [codeSize, UInt8.toNat_ofNat_of_lt' hlt]
    · rw [if_pos hlt]
      rfl
  · rw [if_neg hlt] at hq
    simp [complain, complainAt, withChunk, withLastOp, hs.calm, IsQuiet] at hq

/-- A constant is pooled behind all others, and its index fits in a byte. -/
theorem poolConstant_eq {s : State} (hs : s.Sane) {v : Value}
    (hq : (s.poolConstant v).2.IsQuiet) :
    s.builder.chunk.constants.size < byteRange ∧
      s.poolConstant v = (s.builder.chunk.constants.size,
        s.withBuilder { s.builder with chunk := { s.builder.chunk with
          constants := s.builder.chunk.constants.push v } } s.work s.defects) := by
  unfold poolConstant Chunk.pushConstant at hq ⊢
  dsimp only at hq ⊢
  by_cases hlt : s.builder.chunk.constants.size < byteRange
  · rw [if_pos hlt]
    exact ⟨hlt, rfl⟩
  · rw [if_neg hlt] at hq
    simp [complain, complainAt, withChunk, hs.calm, IsQuiet] at hq

/-- Reading takes the first token of the rest; behind the last one the end goes
on. -/
theorem read_eq {s : State} (hs : s.Sane) (hq : s.read.IsQuiet) :
    ∃ t rest, s.read =
        { s with previous := s.current, current := t, rest, work := s.work + 1 } ∧
      ((s.rest = t :: rest ∧ t.kind ≠ .invalid) ∨
        (s.rest = [] ∧ rest = [] ∧ t = .endAt s.current.line)) := by
  unfold read at hq ⊢
  cases hrest : s.rest with
  | nil => exact ⟨.endAt s.current.line, [], rfl, .inr ⟨rfl, rfl, rfl⟩⟩
  | cons t rest =>
    rw [hrest] at hq
    unfold pull at hq ⊢
    split
    · next hinvalid =>
      rw [hinvalid] at hq
      have hq' := isQuiet_of_pull (s := s.tick.tick.complainAt t (.noToken t.lexeme)) hq
      refine absurd hq' (not_isQuiet_complainAt (s := s.tick.tick) ?_ _ _)
      exact ⟨hs.quiet, hs.calm, hs.named, hs.roomy, hs.linked, hs.known, hs.closed⟩
    · next hvalid => exact ⟨t, rest, rfl, .inl ⟨rfl, hvalid⟩⟩

/-- A token that is needed is there. -/
theorem require_eq {s : State} (hs : s.Sane) {k : TokenKind} {what : Expected}
    (hq : (s.require k what).IsQuiet) : s.sees k = true ∧ s.require k what = s.read := by
  unfold require at hq ⊢
  split at hq
  · next hsees => exact ⟨hsees, by rw [if_pos hsees]⟩
  · exact absurd hq (not_isQuiet_complainNext hs _)

/-! ## Good order is kept -/

theorem Knows.push {s : State} {f : Function Value} (h : s.Knows f) (done : Finished) :
    ∃ d ∈ s.finished.push done, d.function = f := by
  obtain ⟨d, hd, hf⟩ := h
  exact ⟨d, Array.mem_push.mpr (.inl hd), hf⟩

/-- Good order only depends on the tokens, the functions and the silence. -/
theorem Sane.withBuilder {s : State} (hs : s.Sane) {b : Builder} (hroomy : Roomy b)
    (hcaptures : b.captures = s.builder.captures) (hknown : s.KnowsAll b.chunk)
    (work : Nat) (defects : List Defect) : (s.withBuilder b work defects).Sane where
  quiet := hs.quiet
  calm := hs.calm
  named := hs.named
  roomy := List.forall_mem_cons.mpr ⟨hroomy, (List.forall_mem_cons.mp hs.roomy).2⟩
  linked := hs.linked.congr hcaptures
  known := List.forall_mem_cons.mpr ⟨hknown, (List.forall_mem_cons.mp hs.known).2⟩
  closed := hs.closed

/-- Code may be written as long as each byte gets its line. -/
theorem Sane.withCode {s : State} (hs : s.Sane) {c : Chunk Value} {op : Option Opcode}
    (hlines : c.lines.size = c.code.size)
    (hconstants : c.constants = s.builder.chunk.constants)
    (work : Nat) (defects : List Defect) :
    (s.withBuilder { s.builder with chunk := c, lastOp := op } work defects).Sane := by
  obtain ⟨hroomy, -⟩ := List.forall_mem_cons.mp hs.roomy
  obtain ⟨hknown, -⟩ := List.forall_mem_cons.mp hs.known
  refine hs.withBuilder ?_ ?_ (fun f hf => ?_) ..
  · exact ⟨hroomy.locals, hroomy.captures, hconstants ▸ hroomy.constants, hlines⟩
  · rfl
  · exact hknown f (hconstants ▸ hf)

theorem size_lines {s : State} (hs : s.Sane) :
    s.builder.chunk.lines.size = s.builder.chunk.code.size :=
  (hs.roomy _ List.mem_cons_self).lines

theorem Sane.read {s : State} (hs : s.Sane) (hq : s.read.IsQuiet) : s.read.Sane := by
  obtain ⟨t, rest, heq, hor⟩ := read_eq hs hq
  rw [heq]
  refine ⟨hs.quiet, hs.calm, fun t' ht' hkind => ?_, hs.roomy, hs.linked, hs.known,
    hs.closed⟩
  simp only [List.mem_cons] at ht'
  rcases hor with ⟨hrest, -⟩ | ⟨-, rfl, rfl⟩
  · refine hs.named t' ?_ hkind
    rw [hrest]
    simp only [List.mem_cons]
    tauto
  · rcases ht' with rfl | rfl | hnil
    · exact hs.named _ (by simp) hkind
    · cases hkind
    · cases hnil

theorem Edit.sane {s t : State} (h : Edit s t) (hs : s.Sane) (ht : t.IsQuiet) :
    t.Sane := by
  have hlines := size_lines hs
  cases h with
  | tick => exact hs.withCode hlines rfl ..
  | read => exact hs.read ht
  | complain => exact absurd ht (not_isQuiet_complainAt hs _ _)
  | note => exact hs.withCode hlines rfl ..
  | append =>
    refine hs.withCode ?_ ?_ ..
    · simp [Chunk.append, hlines]
    · rfl
  | setLastOp => exact hs.withCode hlines rfl ..
  | openJump =>
    refine hs.withCode ?_ ?_ ..
    · simp [Chunk.appendWith, Chunk.appendOp, Chunk.append, withChunk, hlines]
    · rfl
  | landJump operand =>
    obtain ⟨byte, defects, -, heq⟩ := landJump_eq hs ht
    rw [heq]
    refine hs.withCode ?_ ?_ ..
    · simp [hlines]
    · rfl
  | loopBack start =>
    obtain ⟨byte, defects, -, heq⟩ := loopBack_eq hs ht
    rw [heq]
    refine hs.withCode ?_ ?_ ..
    · simp [Chunk.appendWith, Chunk.appendOp, Chunk.append, hlines]
    · rfl
  | pool v known =>
    obtain ⟨hroomy, -⟩ := List.forall_mem_cons.mp hs.roomy
    obtain ⟨hk, -⟩ := List.forall_mem_cons.mp hs.known
    obtain ⟨hroom, heq⟩ := poolConstant_eq hs ht
    rw [heq]
    refine hs.withBuilder ?_ ?_ (fun f hf => ?_) ..
    · exact ⟨hroomy.locals, hroomy.captures, Nat.le_trans (Nat.le_of_eq (Array.size_push _)) hroom,
        hlines⟩
    · rfl
    · rcases Array.mem_push.mp hf with hold | hnew
      · exact hk f hold
      · exact known hs.quiet f hnew.symm
  | capture found hname hfound =>
    have hlexeme := hs.named _ List.mem_cons_self hname
    have hf := found_captureFrom hlexeme hfound hs.roomy hs.linked
    obtain ⟨hk, hks⟩ := List.forall_mem_cons.mp hs.known
    refine ⟨hs.quiet, hs.calm, hs.named, hf.roomy, hf.linked, ?_, hs.closed⟩
    refine List.forall_mem_cons.mpr ⟨?_, fun b hb => ?_⟩
    · rw [hf.inner.chunk]
      exact hk
    · obtain ⟨b₀, hb₀, hgrown⟩ := hf.around.exists_of_mem hb
      rw [hgrown.chunk]
      exact hks b₀ hb₀

/-- Every action keeps the compiler in good order, unless something is
reported. -/
theorem Action.sane {s t : State} (h : Action s t) (hs : s.Sane) (ht : t.IsQuiet) :
    t.Sane := by
  obtain ⟨hroomy, hroomys⟩ := List.forall_mem_cons.mp hs.roomy
  obtain ⟨hknown, hknowns⟩ := List.forall_mem_cons.mp hs.known
  cases h with
  | edit h => exact h.sane hs ht
  | settle => exact ⟨hs.quiet, rfl, hs.named, hs.roomy, hs.linked, hs.known, hs.closed⟩
  | checkpoint =>
    refine hs.withBuilder ?_ ?_ ?_ ..
    exacts [⟨hroomy.locals, hroomy.captures, hroomy.constants, hroomy.lines⟩, rfl, hknown]
  | setScope depth locals room =>
    refine hs.withBuilder ?_ ?_ ?_ ..
    exacts [⟨room hroomy.locals, hroomy.captures, hroomy.constants, hroomy.lines⟩, rfl, hknown]
  | setArity =>
    refine hs.withBuilder ?_ ?_ ?_ ..
    exacts [⟨hroomy.locals, hroomy.captures, hroomy.constants, hroomy.lines⟩, rfl, hknown]
  | enter name =>
    refine ⟨hs.quiet, hs.calm, hs.named, ?_, .inner ?_ hs.linked, ?_, hs.closed⟩
    · refine List.forall_mem_cons.mpr ⟨?_, hs.roomy⟩
      exact roomy_start (some name)
    · exact fun c hc => absurd hc List.not_mem_nil
    · refine List.forall_mem_cons.mpr ⟨fun f hf => ?_, hs.known⟩
      exact absurd hf (Array.not_mem_empty _)
  | leave =>
    have hempty : s.diagnostics.isEmpty = true := Array.isEmpty_iff.mpr hs.quiet
    have hknows : ∀ f, s.Knows f →
        (s.leaveFunction (s.builder.finish s.nextId)).Knows f := by
      intro f hf
      unfold Knows leaveFunction
      rw [if_pos hempty]
      exact hf.push _
    refine ⟨hs.quiet, hs.calm, hs.named, ?_, ?_, ?_, ?_⟩
    all_goals unfold leaveFunction
    · cases haround : s.around with
      | nil => exact List.forall_mem_singleton.mpr roomy_empty
      | cons b bs =>
        rw [haround] at hroomys
        exact hroomys
    · cases hlinked : s.around with
      | nil => exact .outermost rfl
      | cons b bs =>
        have hl := hs.linked
        rw [hlinked] at hl
        cases hl with
        | inner _ hrest => exact hrest
    · cases haround : s.around with
      | nil =>
        refine List.forall_mem_singleton.mpr fun f hf => ?_
        exact absurd hf (Array.not_mem_empty _)
      | cons b bs =>
        rw [haround] at hknowns
        exact fun b' hb' f hf => hknows f (hknowns b' hb' f hf)
    · intro done hdone f hf
      rw [if_pos hempty, Array.mem_push] at hdone
      rcases hdone with hold | rfl
      · exact hknows f (hs.closed done hold f hf)
      · exact hknows f (hknown f hf)

/-- Good order is kept until something is reported. -/
theorem Actions.sane {s t : State} (h : Actions s t) (hs : s.Sane) (ht : t.IsQuiet) :
    t.Sane := by
  induction h with
  | refl => exact hs
  | tail _ act ih => exact act.sane (ih (act.isQuiet ht)) ht

theorem Edits.sane {s t : State} (h : Edits s t) (hs : s.Sane) (ht : t.IsQuiet) :
    t.Sane :=
  h.actions.sane hs ht

theorem sane_initial (firstId : Identity) {tokens : List Token}
    (h : ∀ t ∈ tokens, t.kind = .identifier → t.lexeme ≠ "") :
    (initial firstId tokens).Sane where
  quiet := rfl
  calm := rfl
  named t ht hkind := by
    simp only [List.mem_cons] at ht
    rcases ht with rfl | rfl | ht
    · cases hkind
    · cases hkind
    · exact h t ht hkind
  roomy := List.forall_mem_singleton.mpr (roomy_start none)
  linked := .outermost rfl
  known := List.forall_mem_singleton.mpr fun _ hf => absurd hf (Array.not_mem_empty _)
  closed _ hdone := absurd hdone (Array.not_mem_empty _)

/-! ## What is left to read -/

/-- How many tokens are left, the end not counted. -/
def left (s : State) : Nat := s.rest.length + if s.sees .endOfSource then 0 else 1

theorem left_pull_le (ts : List Token) (s : State) : (s.pull ts).left ≤ ts.length := by
  induction ts generalizing s with
  | nil => exact Nat.le_refl 0
  | cons t rest ih =>
    unfold pull
    split
    · exact Nat.le_succ_of_le (ih _)
    · unfold left
      rw [List.length_cons]
      dsimp only
      split <;> omega

theorem left_read_le (s : State) : s.read.left ≤ s.rest.length :=
  left_pull_le s.rest s.tick

theorem left_read_lt {s : State} (h : ¬ s.sees .endOfSource) : s.read.left < s.left := by
  have hle := left_read_le s
  unfold left at hle ⊢
  rw [if_neg h]
  omega

theorem left_complainAt (s : State) (t : Token) (c : Complaint) :
    (s.complainAt t c).left = s.left := by
  unfold complainAt
  split <;> rfl

theorem left_guarantee (s : State) (holds : Bool) (d : Defect) :
    (s.guarantee holds d).left = s.left := by
  unfold guarantee
  split <;> rfl

theorem left_landJump (s : State) (operand : Nat) : (s.landJump operand).left = s.left := by
  unfold landJump
  dsimp only
  split
  · exact left_guarantee ..
  · exact (left_complainAt ..).trans (left_guarantee ..)

theorem left_loopBack (s : State) (start : Nat) : (s.loopBack start).left = s.left := by
  unfold loopBack
  dsimp only
  split
  · exact left_guarantee ..
  · exact (left_complainAt ..).trans (left_guarantee ..)

theorem left_poolConstant (s : State) (v : Value) : (s.poolConstant v).2.left = s.left := by
  unfold poolConstant
  dsimp only
  split
  · rfl
  · exact left_complainAt ..

theorem Action.left_le {s t : State} (h : Action s t) : t.left ≤ s.left := by
  cases h with
  | edit h =>
    cases h with
    | read =>
      have := left_read_le s
      unfold left at this ⊢
      omega
    | complain => exact Nat.le_of_eq (left_complainAt ..)
    | landJump => exact Nat.le_of_eq (left_landJump ..)
    | loopBack => exact Nat.le_of_eq (left_loopBack ..)
    | pool => exact Nat.le_of_eq (left_poolConstant ..)
    | _ => exact Nat.le_refl _
  | _ => exact Nat.le_refl _

/-- Tokens are read and never put back. -/
theorem Actions.left_le {s t : State} (h : Actions s t) : t.left ≤ s.left := by
  induction h with
  | refl => exact Nat.le_refl _
  | tail _ act ih => exact Nat.le_trans act.left_le ih

theorem Edits.left_le {s t : State} (h : Edits s t) : t.left ≤ s.left :=
  h.actions.left_le

end State

end ScriptEngine.Compile
