import ScriptEngine.Proofs.Decode
set_option autoImplicit false

/-!
# Landing jumps

While code is written, any number of jumps can be open at once, and they can be landed in any
order, with anything written in between.  A jump that is landed leads to where the code ended
at that moment, and goes on leading there; one that would have to go too far is refused and
nothing changes.  A loop leads back to its start or is refused (`jumps_land`).

Behind this is that two open jumps never share a byte (`Site.Sound`), so that the bytes of one
jump are left alone while others are landed (`Site.Fixes.after`).
-/

namespace ScriptEngine.Chunk

/-! ## Sites -/

/-- A jump whose distance is still open. -/
structure OpenJump where
  /-- Taken on a false condition only. -/
  whenFalse : Bool
  /-- Where the operand stands. -/
  operand : Nat
  deriving DecidableEq, Repr

namespace OpenJump

/-- The opcode of the jump. -/
def op (j : OpenJump) : Opcode := if j.whenFalse then .jumpIfFalse else .jump

/-- Where the jump itself stands. -/
def offset (j : OpenJump) : Nat := j.operand - 1

end OpenJump

/-- A chunk that is being written, with the jumps that are open, newest first. -/
structure Site where
  chunk : Chunk Value
  opened : List OpenJump := []

/-- One thing that is done to a chunk that is being written. -/
inductive Emission where
  | byte (byte : UInt8) (line : Nat)
  | op (op : Opcode) (line : Nat)
  | opWith (op : Opcode) (operand : UInt8) (line : Nat)
  | constant (value : Value)
  /-- A jump is open from now on. -/
  | openJump (whenFalse : Bool) (line : Nat)
  /-- The open jump at a place of the list is landed.  It stays open if it is refused. -/
  | landJump (place : Nat)
  /-- A loop is closed.  Behind the end of the code none starts. -/
  | loopBack (start line : Nat)

namespace Site

/-- The site with the open jump at a place of the list landed, unless that is refused. -/
def land (s : Site) (place : Nat) : Site :=
  match s.opened[place]? with
  | none => s
  | some j =>
      match s.chunk.landJump j.operand with
      | .ok chunk => ⟨chunk, s.opened.eraseIdx place⟩
      | .error _ => s

/-- The site with a loop closed, refused or not. -/
def loop (s : Site) (start line : Nat) : Site :=
  if start ≤ s.chunk.code.size then { s with chunk := (s.chunk.loopBack start line).2 } else s

/-- The site after one more emission. -/
def emit (s : Site) : Emission → Site
  | .byte byte line => { s with chunk := s.chunk.append byte line }
  | .op op line => { s with chunk := s.chunk.appendOp op line }
  | .opWith op operand line => { s with chunk := s.chunk.appendWith op operand line }
  | .constant value => { s with chunk := (s.chunk.pushConstant value).2 }
  | .openJump whenFalse line =>
      let (operand, chunk) := s.chunk.openJump (OpenJump.op ⟨whenFalse, 0⟩) line
      ⟨chunk, ⟨whenFalse, operand⟩ :: s.opened⟩
  | .landJump place => s.land place
  | .loopBack start line => s.loop start line

/-- The site after any number of emissions. -/
def after (s : Site) (es : List Emission) : Site := es.foldl emit s

end Site

/-! ## What an emission does -/

section Equations

variable (c : Chunk Value)

/-- The chunk with one byte of its code replaced. -/
def withByte (offset : Nat) (byte : UInt8) : Chunk Value :=
  { c with code := c.code.setIfInBounds offset byte }

@[simp] theorem size_code_withByte (offset : Nat) (byte : UInt8) :
    (c.withByte offset byte).code.size = c.code.size :=
  Array.size_setIfInBounds

/-- A distance that fits is landed by setting the operand, any other one is refused. -/
theorem landJump_eq (operand : Nat) : c.landJump operand =
    if c.code.size - operand - 1 < 256 then
      .ok (c.withByte operand (c.code.size - operand - 1).toUInt8)
    else .error (c.code.size - operand - 1) := by
  unfold landJump distanceByte withByte
  by_cases h : c.code.size - operand - 1 < 256
  · simp only [if_pos h]
  · simp only [if_neg h]

theorem loopBack_eq (start line : Nat) : c.loopBack start line =
    if c.code.size + 2 - start < 256 then
      (.ok (), c.appendWith .loop (c.code.size + 2 - start).toUInt8 line)
    else (.error (c.code.size + 2 - start), c.appendWith .loop 0 line) := by
  unfold loopBack distanceByte
  by_cases h : c.code.size + 2 - start < 256
  · simp only [if_pos h]
  · simp only [if_neg h]

end Equations

namespace Site

/-- All that an emission can do to a site. -/
inductive Step (s : Site) : Site → Prop where
  /-- Bytes are written, each with a line, or constants added. -/
  | wrote (bytes : Array UInt8) (lines : Array Nat) (constants : Array Value)
      (size : lines.size = bytes.size) :
      Step s ⟨⟨s.chunk.code ++ bytes, s.chunk.lines ++ lines, constants⟩, s.opened⟩
  /-- A jump is written with a placeholder. -/
  | opened (j : OpenJump) (line : Nat) (behind : j.operand = s.chunk.code.size + 1) :
      Step s ⟨⟨s.chunk.code ++ #[j.op.toByte, 0xff], s.chunk.lines ++ #[line, line],
        s.chunk.constants⟩, j :: s.opened⟩
  /-- The operand of an open jump is set. -/
  | landed (before after : List OpenJump) (j : OpenJump) (byte : UInt8)
      (opened : s.opened = before ++ j :: after) :
      Step s ⟨s.chunk.withByte j.operand byte, before ++ after⟩

theorem step_refl (s : Site) : s.Step s := Step.wrote #[] #[] s.chunk.constants rfl

theorem step_appendWith (s : Site) (op : Opcode) (operand : UInt8) (line : Nat) :
    s.Step { s with chunk := s.chunk.appendWith op operand line } :=
  Step.wrote #[op.toByte, operand] #[line, line] s.chunk.constants rfl

theorem land_eq {s : Site} {place : Nat} {j : OpenJump} (h : s.opened[place]? = some j) :
    s.land place = match s.chunk.landJump j.operand with
      | .ok chunk => ⟨chunk, s.opened.eraseIdx place⟩
      | .error _ => s := by
  unfold land
  rw [h]

theorem step_land (s : Site) (place : Nat) : s.Step (s.land place) := by
  cases h : s.opened[place]? with
  | none =>
    unfold land
    rw [h]
    exact s.step_refl
  | some j =>
    rw [land_eq h, landJump_eq]
    by_cases hfits : s.chunk.code.size - j.operand - 1 < 256
    · rw [if_pos hfits]
      obtain ⟨hlt, rfl⟩ := List.getElem?_eq_some_iff.mp h
      rw [List.eraseIdx_eq_take_drop_succ]
      refine .landed _ _ s.opened[place] _ ?_
      rw [List.getElem_cons_drop hlt, List.take_append_drop]
    · rw [if_neg hfits]
      exact s.step_refl

theorem step_loop (s : Site) (start line : Nat) : s.Step (s.loop start line) := by
  unfold loop
  split
  · rw [loopBack_eq]
    split <;> exact s.step_appendWith ..
  · exact s.step_refl

theorem step_emit (s : Site) (e : Emission) : s.Step (s.emit e) := by
  cases e with
  | byte byte line => exact .wrote #[byte] #[line] s.chunk.constants rfl
  | op op line => exact .wrote #[op.toByte] #[line] s.chunk.constants rfl
  | opWith op operand line => exact s.step_appendWith op operand line
  | constant value => exact .wrote #[] #[] (s.chunk.constants.push value) rfl
  | openJump whenFalse line => exact .opened ⟨whenFalse, s.chunk.code.size + 1⟩ line rfl
  | landJump place => exact s.step_land place
  | loopBack start line => exact s.step_loop start line

/-- What each emission keeps, any number of emissions keep. -/
theorem after_induction {P : Site → Prop} (step : ∀ s t, Step s t → P s → P t) {s : Site}
    (h : P s) (es : List Emission) : P (s.after es) := by
  unfold after
  induction es generalizing s with
  | nil => exact h
  | cons e es ih => exact ih (step s _ (s.step_emit e) h)

/-! ## What stays -/

/-- A byte of the code that no open jump has for its operand. -/
structure Fixes (s : Site) (k : Nat) (byte : UInt8) : Prop where
  holds : s.chunk.code[k]? = some byte
  free : ∀ j ∈ s.opened, j.operand ≠ k

/-- Such a byte stays what it is. -/
theorem Fixes.step {s t : Site} {k : Nat} {byte : UInt8} (h : s.Fixes k byte)
    (step : Step s t) : t.Fixes k byte := by
  obtain ⟨hlt, -⟩ := Array.getElem?_eq_some_iff.mp h.holds
  cases step with
  | wrote bytes lines constants size =>
    exact ⟨(Array.getElem?_append_left hlt).trans h.holds, h.free⟩
  | opened j line behind =>
    refine ⟨(Array.getElem?_append_left hlt).trans h.holds, ?_⟩
    refine List.forall_mem_cons.mpr ⟨?_, h.free⟩
    omega
  | landed before after j _ opened =>
    have hfree := h.free
    rw [opened] at hfree
    refine ⟨?_, fun i hi => hfree i ?_⟩
    · exact (Array.getElem?_setIfInBounds_ne (hfree j (by simp))).trans h.holds
    · rcases List.mem_append.mp hi with hi | hi
      · exact List.mem_append_left _ hi
      · exact List.mem_append_right _ (List.mem_cons_of_mem _ hi)

theorem Fixes.after {s : Site} {k : Nat} {byte : UInt8} (h : s.Fixes k byte)
    (es : List Emission) : (s.after es).Fixes k byte :=
  after_induction (P := fun s => s.Fixes k byte) (fun _ _ step h => Fixes.step h step) h es

/-- Each byte that is written gets a line. -/
theorem lines_after {s : Site} (h : s.chunk.code.size ≤ s.chunk.lines.size)
    (es : List Emission) : (s.after es).chunk.code.size ≤ (s.after es).chunk.lines.size := by
  refine after_induction (P := fun s => s.chunk.code.size ≤ s.chunk.lines.size) ?_ h es
  intro s t step h
  cases step with
  | wrote bytes lines constants size => simp only [Array.size_append]; omega
  | opened j line behind =>
    simp only [Array.size_append, List.size_toArray, List.length_cons, List.length_nil]
    omega
  | landed before after j byte opened =>
    rw [size_code_withByte]
    exact h

/-! ## Open jumps -/

/-- Open jumps are in the code, and no two of them share a byte. -/
structure Sound (s : Site) : Prop where
  inside : ∀ j ∈ s.opened, 0 < j.operand ∧ j.operand < s.chunk.code.size ∧
    s.chunk.code[j.offset]? = some j.op.toByte
  apart : s.opened.Pairwise fun j k => k.operand < j.offset

namespace Sound

variable {s t : Site} {before after : List OpenJump} {j : OpenJump}

theorem split (h : s.Sound) (hopened : s.opened = before ++ j :: after) :
    (∀ i ∈ before, j.operand < i.offset) ∧ ∀ i ∈ after, i.operand < j.offset := by
  have hapart := h.apart
  rw [hopened, List.pairwise_append, List.pairwise_cons] at hapart
  obtain ⟨-, ⟨hafter, -⟩, hbefore⟩ := hapart
  exact ⟨fun i hi => hbefore i hi j List.mem_cons_self, hafter⟩

/-- The opcode of an open jump is no operand. -/
theorem fixes_offset (h : s.Sound) (hj : j ∈ s.opened) : s.Fixes j.offset j.op.toByte := by
  obtain ⟨before, after, hopened⟩ := List.append_of_mem hj
  obtain ⟨hbefore, hafter⟩ := h.split hopened
  refine ⟨(h.inside j hj).2.2, fun i hi => ?_⟩
  rw [hopened] at hi
  have hpos := (h.inside j hj).1
  rcases List.mem_append.mp hi with hi | hi
  · have := hbefore i hi
    unfold OpenJump.offset at this ⊢
    omega
  · rcases List.mem_cons.mp hi with rfl | hi
    · unfold OpenJump.offset
      omega
    · exact Nat.ne_of_lt (hafter i hi)

theorem step (h : s.Sound) (step : Step s t) : t.Sound := by
  have hsize : ∀ j ∈ s.opened, j.operand < t.chunk.code.size := by
    intro j hj
    have hlt := (h.inside j hj).2.1
    cases step with
    | wrote | opened =>
      rw [Array.size_append]
      omega
    | landed =>
      rw [size_code_withByte]
      exact hlt
  have hold : ∀ j ∈ s.opened, 0 < j.operand ∧ j.operand < t.chunk.code.size ∧
      t.chunk.code[j.offset]? = some j.op.toByte := fun j hj =>
    ⟨(h.inside j hj).1, hsize j hj, (Fixes.step (h.fixes_offset hj) step).holds⟩
  cases step with
  | wrote => exact ⟨hold, h.apart⟩
  | opened j line behind =>
    have hoffset : j.offset = s.chunk.code.size := by
      unfold OpenJump.offset
      omega
    refine ⟨List.forall_mem_cons.mpr ⟨⟨?_, ?_, ?_⟩, hold⟩,
      List.pairwise_cons.mpr ⟨fun k hk => ?_, h.apart⟩⟩
    · omega
    · rw [behind, Array.size_append]
      exact Nat.lt_succ_self _
    · rw [hoffset, Array.getElem?_append_right (Nat.le_refl _), Nat.sub_self]
      rfl
    · rw [hoffset]
      exact (h.inside k hk).2.1
  | landed before after j byte hopened =>
    have hsub : (before ++ after).Sublist s.opened := by
      rw [hopened]
      exact (List.Sublist.refl before).append (List.sublist_cons_self ..)
    exact ⟨fun i hi => hold i (hsub.subset hi), h.apart.sublist hsub⟩

end Sound

theorem sound_after (c : Chunk Value) (es : List Emission) : (after ⟨c, []⟩ es).Sound :=
  after_induction (P := Sound) (fun _ _ step h => h.step step)
    ⟨fun _ hj => absurd hj List.not_mem_nil, .nil⟩ es

end Site

/-! ## Where jumps lead -/

/-- What stands at `offset` is a jump to `target`.  That it can be decoded takes no more than
that each byte of the code has a line. -/
structure LeadsTo (c : Chunk Value) (offset target : Nat) : Prop where
  target : ∀ i, c.decode offset = .ok i → i.target? = some target
  decodes : c.code.size ≤ c.lines.size → ∃ i, c.decode offset = .ok i

theorem holds_pair {c : Chunk Value} {offset : Nat} {first second : UInt8}
    (hfirst : c.code[offset]? = some first) (hsecond : c.code[offset + 1]? = some second) :
    c.Holds offset [first, second] := by
  intro i b hb
  match i, hb with
  | 0, hb => exact Option.some.inj hb ▸ hfirst
  | 1, hb => exact Option.some.inj hb ▸ hsecond

/-- A jump in the code leads to where its distance says. -/
theorem leadsTo_of_holds {c : Chunk Value} {offset target : Nat} {op : Opcode} {byte : UInt8}
    (h : c.Holds offset [op.toByte, byte]) (hcount : c.operandBytes offset op = .ok 1)
    (htarget : ∀ line, Instruction.target? ⟨offset, line, op, [byte]⟩ = some target) :
    c.LeadsTo offset target := by
  constructor
  · intro i hi
    rw [decode_of_line (exists_of_decode hi).2.1 h hcount] at hi
    exact Except.ok.inj hi ▸ htarget _
  · intro hlines
    obtain ⟨line, hline⟩ := decode_of_holds hlines h hcount
    exact ⟨_, hline⟩

theorem OpenJump.operandBytes_op (c : Chunk Value) (o : Nat) (j : OpenJump) :
    c.operandBytes o j.op = .ok 1 := by
  unfold op
  split <;> rfl

/-- The distance of a jump is counted from behind its operand. -/
theorem OpenJump.target_op (j : OpenJump) (line : Nat) (byte : UInt8) :
    Instruction.target? ⟨j.offset, line, j.op, [byte]⟩ = some (j.offset + 2 + byte.toNat) := by
  unfold op
  split <;> rfl

/-- A jump that is landed leads to the end of the code, and goes on leading there. -/
theorem Site.Sound.leadsTo {s : Site} (h : s.Sound) {place : Nat} {j : OpenJump}
    (hj : s.opened[place]? = some j) (hfits : s.chunk.code.size - j.operand - 1 < 256)
    (later : List Emission) :
    ((s.land place).after later).chunk.LeadsTo j.offset s.chunk.code.size := by
  obtain ⟨hlt, hget⟩ := List.getElem?_eq_some_iff.mp hj
  have hmem : j ∈ s.opened := List.mem_of_getElem? hj
  obtain ⟨hpos, hinside, -⟩ := h.inside j hmem
  have hland : s.land place = ⟨s.chunk.withByte j.operand
      (s.chunk.code.size - j.operand - 1).toUInt8, s.opened.eraseIdx place⟩ := by
    rw [land_eq hj, landJump_eq, if_pos hfits]
  have hoffset : j.offset + 1 = j.operand := Nat.sub_add_cancel hpos
  -- neither byte of the jump is the operand of a jump that is still open
  have hop : (s.land place).Fixes j.offset j.op.toByte :=
    (h.fixes_offset hmem).step (s.step_land place)
  have hbyte : (s.land place).Fixes j.operand (s.chunk.code.size - j.operand - 1).toUInt8 := by
    rw [hland]
    refine ⟨Array.getElem?_setIfInBounds_self_of_lt hinside, fun i hi => ?_⟩
    rw [List.eraseIdx_eq_take_drop_succ] at hi
    have hopened : s.opened = s.opened.take place ++ j :: s.opened.drop (place + 1) := by
      rw [← hget, List.getElem_cons_drop hlt, List.take_append_drop]
    obtain ⟨hbefore, hafter⟩ := h.split hopened
    unfold OpenJump.offset at hbefore hafter
    rcases List.mem_append.mp hi with hi | hi
    · have := hbefore i hi
      omega
    · have := hafter i hi
      omega
  have hholds : ((s.land place).after later).chunk.Holds j.offset
      [j.op.toByte, (s.chunk.code.size - j.operand - 1).toUInt8] := by
    refine holds_pair (hop.after later).holds ?_
    rw [hoffset]
    exact (hbyte.after later).holds
  refine leadsTo_of_holds hholds (j.operandBytes_op ..) fun line => ?_
  rw [j.target_op, UInt8.toNat_ofNat_of_lt' hfits]
  congr 1
  omega

/-- A loop that is not refused leads back to its start. -/
theorem leadsTo_loopBack (c : Chunk Value) {start : Nat} (line : Nat)
    (hstart : start ≤ c.code.size) (hfits : c.code.size + 2 - start < 256) :
    (c.loopBack start line).2.LeadsTo c.code.size start := by
  rw [loopBack_eq, if_pos hfits]
  have hcode : (c.appendWith .loop (c.code.size + 2 - start).toUInt8 line).code =
      c.code ++ [Opcode.loop.toByte, (c.code.size + 2 - start).toUInt8].toArray := rfl
  refine leadsTo_of_holds (holds_of_append hcode) rfl fun line => ?_
  unfold Instruction.target? Instruction.size
  dsimp only [List.length_singleton]
  rw [UInt8.toNat_ofNat_of_lt' hfits, if_pos (by omega)]
  congr 1
  omega

/-! ## The law of jumps -/

/-- Whatever has been written to a chunk, with any number of jumps open and landed in any order,
and each byte given a line.

An open jump with at most 255 bytes behind its operand is landed.  Only its operand changes, and
it leads to the end that the code has at that moment, whatever is written or landed afterwards.
With more bytes behind it, it is refused with their number and nothing changes.

A loop is two bytes in any case.  It leads back to its start if the way from its end is at most
255 bytes, and is refused with the length of the way otherwise. -/
theorem jumps_land (c : Chunk Value) (es : List Emission) :
    let s := Site.after ⟨c, []⟩ es
    (c.code.size ≤ c.lines.size → s.chunk.code.size ≤ s.chunk.lines.size) ∧
    (∀ (place : Nat) (j : OpenJump), s.opened[place]? = some j → j.operand < s.chunk.code.size ∧
      (s.chunk.code.size ≤ j.operand + 1 + 255 → ∃ byte,
        s.chunk.landJump j.operand = .ok (s.chunk.withByte j.operand byte) ∧
        (s.land place).chunk = s.chunk.withByte j.operand byte ∧
        ∀ later : List Emission,
          ((s.land place).after later).chunk.LeadsTo j.offset s.chunk.code.size) ∧
      (j.operand + 1 + 255 < s.chunk.code.size →
        s.chunk.landJump j.operand = .error (s.chunk.code.size - (j.operand + 1)) ∧
        s.land place = s)) ∧
    ∀ start line : Nat, start ≤ s.chunk.code.size →
      (∃ operand, (s.chunk.loopBack start line).2 = s.chunk.appendWith .loop operand line) ∧
      (s.chunk.code.size + 2 - start ≤ 255 → (s.chunk.loopBack start line).1 = .ok () ∧
        (s.chunk.loopBack start line).2.LeadsTo s.chunk.code.size start) ∧
      (255 < s.chunk.code.size + 2 - start →
        (s.chunk.loopBack start line).1 = .error (s.chunk.code.size + 2 - start)) := by
  intro s
  have hsound : s.Sound := Site.sound_after c es
  refine ⟨fun hlines => Site.lines_after hlines es, fun place j hj => ?_,
    fun start line hstart => ⟨?_, fun hfits => ⟨?_, ?_⟩, fun hfar => ?_⟩⟩
  · have hinside := (hsound.inside j (List.mem_of_getElem? hj)).2.1
    refine ⟨hinside, fun hnear => ?_, fun hfar => ?_⟩
    · have hfits : s.chunk.code.size - j.operand - 1 < 256 := by omega
      have hland := s.chunk.landJump_eq j.operand
      rw [if_pos hfits] at hland
      refine ⟨_, hland, ?_, hsound.leadsTo hj hfits⟩
      rw [Site.land_eq hj, hland]
    · have hfits : ¬ s.chunk.code.size - j.operand - 1 < 256 := by omega
      have hland := s.chunk.landJump_eq j.operand
      rw [if_neg hfits] at hland
      refine ⟨hland, ?_⟩
      rw [Site.land_eq hj, hland]
  · rw [loopBack_eq]
    split
    · exact ⟨_, rfl⟩
    · exact ⟨_, rfl⟩
  · rw [loopBack_eq, if_pos (by omega)]
  · exact s.chunk.leadsTo_loopBack line hstart (by omega)
  · rw [loopBack_eq, if_neg (by omega)]

/-- A branch with both its jumps open. -/
def openBranch : List Emission :=
  [.openJump true 1, .op .pop 1, .opWith .getLocal 1 2, .openJump false 2]

/-- The jump over the first part is landed before the one over the second part, and still leads
there when the other one is landed; a loop from there leads back to the front. -/
theorem jumps_land_branch :
    (∃ i, (((Site.after ⟨.empty, []⟩ openBranch).land 1).after
        [.op .pop 3, .opWith .getLocal 2 3, .landJump 0]).chunk.decode 0 = .ok i ∧
      i.target? = some 7) ∧
    ((Site.after ⟨.empty, []⟩ openBranch).chunk.loopBack 0 4).2.LeadsTo 7 0 := by
  obtain ⟨-, hjumps, hloops⟩ := jumps_land .empty openBranch
  obtain ⟨-, hnear, -⟩ := hjumps 1 ⟨true, 1⟩ rfl
  obtain ⟨byte, -, -, hleads⟩ := hnear (by decide)
  have hlater := hleads [.op .pop 3, .opWith .getLocal 2 3, .landJump 0]
  obtain ⟨i, hi⟩ := hlater.decodes (by decide)
  obtain ⟨-, hloop, -⟩ := hloops 0 4 (Nat.zero_le _)
  exact ⟨⟨i, hi, hlater.target i hi⟩, (hloop (by decide)).2⟩

end ScriptEngine.Chunk
