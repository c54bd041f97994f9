import ScriptEngine.Proofs.Compile.Placed
import ScriptEngine.Proofs.Compile.StatementWalk
import ScriptEngine.Proofs.Decode
set_option autoImplicit false

/-!
# Compilation: rows of instructions

As long as nothing was reported, a compilation writes whole instructions, and gives all
bytes of an instruction the line of one token.  The code of a function that is finished
is therefore a row of such instructions (`Chunk.IsRow`), and these are what it decodes
to (`instructions_of_isRow`).

What was written to each function is known at every point of a compilation; that it
consists of whole instructions is kept by every move (`Move.rows`).
-/

namespace ScriptEngine

namespace Compile

/-! ## Rows -/

/-- The instructions of a row that starts at an offset. -/
def located : Nat → List Written → List Instruction
  | _, [] => []
  | o, w :: ws => ⟨o, w.line, w.op, w.operands⟩ :: located (o + w.bytes.length) ws

end Compile

open Compile

namespace Chunk

/-- The code is a row of whole instructions. -/
structure IsRow (c : Chunk Value) (ws : List Written) : Prop where
  code : c.code.toList = ws.flatMap Written.bytes
  lines : c.lines.toList = ws.flatMap Written.lines
  whole : ∀ w ∈ ws, w.IsWhole c.constants

variable {c : Chunk Value} {before after : List Written} {w : Written}

theorem length_flatMap_lines (ws : List Written) :
    (ws.flatMap Written.lines).length = sizeOfAll ws := by
  unfold sizeOfAll
  rw [List.length_flatMap, List.length_flatMap]
  simp only [Written.length_lines]

theorem IsRow.size_code {ws : List Written} (h : c.IsRow ws) : c.code.size = sizeOfAll ws := by
  rw [← Array.length_toList, h.code]
  rfl

theorem IsRow.size_lines {ws : List Written} (h : c.IsRow ws) :
    c.lines.size = c.code.size := by
  rw [h.size_code, ← Array.length_toList, h.lines, length_flatMap_lines]

/-- Each instruction of a row is in the code behind those before it. -/
theorem IsRow.holds (h : c.IsRow (before ++ w :: after)) :
    c.Holds (sizeOfAll before) w.bytes := by
  intro i b hb
  rw [← Array.getElem?_toList, h.code, List.flatMap_append,
    List.getElem?_append_right (show sizeOfAll before ≤ _ from Nat.le_add_right _ _)]
  have hindex : sizeOfAll before + i - (before.flatMap Written.bytes).length = i :=
    Nat.add_sub_cancel_left ..
  rw [hindex, List.flatMap_cons, List.getElem?_append_left]
  · exact hb
  · exact (List.getElem?_eq_some_iff.mp hb).1

/-- All bytes of an instruction of a row have its line. -/
theorem IsRow.line (h : c.IsRow (before ++ w :: after)) {k : Nat} (hk : k < w.bytes.length) :
    c.lines[sizeOfAll before + k]? = some w.line := by
  rw [← Array.getElem?_toList, h.lines, List.flatMap_append,
    List.getElem?_append_right (by rw [length_flatMap_lines]; exact Nat.le_add_right _ _),
    length_flatMap_lines, Nat.add_sub_cancel_left, List.flatMap_cons, List.getElem?_append_left]
  · unfold Written.lines
    rw [List.getElem?_replicate_of_lt hk]
  · rwa [Written.length_lines]

theorem operandBytes_of_isWhole {o : Nat} (h : c.Holds o w.bytes)
    (hwhole : w.IsWhole c.constants) : c.operandBytes o w.op = .ok w.operands.length := by
  unfold Written.IsWhole at hwhole
  split at hwhole
  · next hop =>
    obtain ⟨index, pairs, f, hoperands, hf, hlen, hword⟩ := hwhole
    have hbyte : c.code[o + 1]? = some index := h 1 index (by rw [Written.bytes, hoperands]; rfl)
    rw [hop, hoperands]
    exact operandBytes_of_pairs hbyte hf hlen hword
  · next hop => exact operandBytes_of_ne hop hwhole.symm

theorem decode_of_isRow (h : c.IsRow (before ++ w :: after)) :
    c.decode (sizeOfAll before) = .ok ⟨sizeOfAll before, w.line, w.op, w.operands⟩ := by
  have hwhole := h.whole w (List.mem_append_right _ List.mem_cons_self)
  obtain ⟨line, hdecode⟩ := decode_of_holds (Nat.le_of_eq h.size_lines.symm) h.holds
    (operandBytes_of_isWhole h.holds hwhole)
  have hline := (exists_of_decode hdecode).2.1
  have hfirst : c.lines[sizeOfAll before]? = some w.line := h.line (k := 0) (Nat.succ_pos _)
  obtain rfl : line = w.line := Option.some.inj (hline.symm.trans hfirst)
  exact hdecode

/-- A row is decoded to its instructions. -/
theorem instructionsFrom_of_isRow (h : c.IsRow (before ++ after)) :
    c.instructionsFrom (sizeOfAll before) = .ok (located (sizeOfAll before) after) := by
  induction after generalizing before with
  | nil =>
    rw [List.append_nil] at h
    exact instructionsFrom_of_le (Nat.le_of_eq h.size_code)
  | cons w after ih =>
    have hinside : sizeOfAll before < c.code.size := by
      rw [h.size_code, sizeOfAll_append, sizeOfAll_cons, Written.bytes, List.length_cons]
      omega
    have hsize : sizeOfAll before + (w.operands.length + 1) = sizeOfAll (before ++ [w]) := by
      simp [Written.bytes, sizeOfAll]
    have hrow : c.IsRow ((before ++ [w]) ++ after) := by rwa [List.append_assoc]
    have hlater := ih hrow
    unfold instructionsFrom
    rw [dif_pos hinside, decode_of_isRow h]
    dsimp only [Instruction.size]
    rw [hsize, hlater]
    show _ = Except.ok (_ :: located (sizeOfAll before + (w.operands.length + 1)) after)
    rw [hsize]

theorem instructions_of_isRow {ws : List Written} (h : c.IsRow ws) :
    c.instructions = .ok (located 0 ws) :=
  instructionsFrom_of_isRow (show c.IsRow ([] ++ ws) from h)

/-- An instruction of a row is one that was written. -/
theorem exists_of_mem_located {o : Nat} {ws : List Written} {i : Instruction}
    (hi : i ∈ located o ws) : ∃ front w back, ws = front ++ w :: back ∧
      i = ⟨o + sizeOfAll front, w.line, w.op, w.operands⟩ := by
  induction ws generalizing o with
  | nil => cases hi
  | cons w ws ih =>
    rcases List.mem_cons.mp hi with rfl | hi
    · exact ⟨[], w, ws, rfl, rfl⟩
    · obtain ⟨front, v, back, rfl, rfl⟩ := ih hi
      refine ⟨w :: front, v, back, rfl, ?_⟩
      rw [sizeOfAll_cons, Nat.add_assoc]

/-- All bytes of an instruction have its line. -/
theorem line_of_mem_instructions {ws : List Written} (h : c.IsRow ws) {is : List Instruction}
    (his : c.instructions = .ok is) {i : Instruction} (hi : i ∈ is) {k : Nat} (hk : k < i.size) :
    c.lines[i.offset + k]? = some i.line := by
  obtain rfl := Except.ok.inj ((instructions_of_isRow h).symm.trans his)
  obtain ⟨front, w, back, rfl, rfl⟩ := exists_of_mem_located hi
  rw [Nat.zero_add]
  exact h.line hk

end Chunk

namespace Compile

/-! ## Silence -/

/-- Nothing is kept silent unless something was reported. -/
def State.IsCalm (s : State) : Prop := s.IsQuiet → s.isRecovering = false

/-- No function was finished, and nothing is kept silent without reason. -/
structure State.Steady (s t : State) : Prop where
  finished : t.finished = s.finished
  calm : s.IsCalm → t.IsCalm
  quiet : t.IsQuiet → s.IsQuiet

namespace State

variable {s t u : State}

theorem Steady.refl (s : State) : s.Steady s := ⟨rfl, id, id⟩

theorem Steady.trans (h : s.Steady t) (k : t.Steady u) : s.Steady u :=
  ⟨k.finished.trans h.finished, k.calm ∘ h.calm, h.quiet ∘ k.quiet⟩

/-- The code that is written does not matter. -/
theorem Steady.of_eq (hfinished : t.finished = s.finished)
    (hdiagnostics : t.diagnostics = s.diagnostics) (hrecovering : t.isRecovering = s.isRecovering) :
    s.Steady t where
  finished := hfinished
  calm hs hq := by
    rw [hrecovering]
    refine hs ?_
    unfold IsQuiet at hq ⊢
    rw [← hdiagnostics, hq]
  quiet hq := by
    unfold IsQuiet at hq ⊢
    rw [← hdiagnostics, hq]

theorem steady_tick (s : State) : s.Steady s.tick := .of_eq rfl rfl rfl

theorem steady_withChunk (s : State) (c : Chunk Value) : s.Steady (s.withChunk c) :=
  .of_eq rfl rfl rfl

theorem steady_withLastOp (s : State) (op : Option Opcode) : s.Steady (s.withLastOp op) :=
  .of_eq rfl rfl rfl

theorem steady_complainAt (s : State) (t : Token) (c : Complaint) :
    s.Steady (s.complainAt t c) where
  finished := by
    unfold complainAt
    split <;> rfl
  calm hs hq := by
    unfold complainAt at hq ⊢
    split
    · next hrecovering =>
      rw [if_pos hrecovering] at hq
      exact hs hq
    · next hrecovering =>
      rw [if_neg hrecovering] at hq
      simp [IsQuiet] at hq
  quiet := isQuiet_of_complainAt

theorem steady_pull (s : State) (ts : List Token) : s.Steady (s.pull ts) := by
  induction ts generalizing s with
  | nil => exact .of_eq rfl rfl rfl
  | cons t ts ih =>
    unfold pull
    split
    · exact s.steady_tick.trans <|
        (steady_complainAt s.tick t (.noToken t.lexeme)).trans (ih _)
    · exact .of_eq rfl rfl rfl

theorem steady_read (s : State) : s.Steady s.read :=
  s.steady_tick.trans ((steady_pull s.tick s.rest).trans (.of_eq rfl rfl rfl))

theorem steady_guarantee (s : State) (holds : Bool) (d : Defect) :
    s.Steady (s.guarantee holds d) := by
  unfold guarantee
  split
  · exact .refl s
  · exact .of_eq rfl rfl rfl

theorem steady_landJump (s : State) (operand : Nat) : s.Steady (s.landJump operand) := by
  refine (steady_guarantee s (operand < s.codeSize) .landedNoJump).trans ?_
  unfold landJump
  dsimp only
  split
  · exact (steady_withChunk ..).trans (steady_withLastOp ..)
  · exact (steady_complainAt ..).trans (steady_withLastOp ..)

theorem steady_loopBack (s : State) (start : Nat) : s.Steady (s.loopBack start) := by
  refine (steady_guarantee s (start ≤ s.codeSize) .loopStartsLate).trans ?_
  unfold loopBack
  dsimp only
  have hwritten : ∀ u : State, ∀ c, u.Steady ((u.withChunk c).withLastOp (some .loop)) :=
    fun u c => (steady_withChunk u c).trans (steady_withLastOp ..)
  split
  · exact hwritten ..
  · exact (hwritten ..).trans (steady_complainAt ..)

theorem steady_poolConstant (s : State) (v : Value) : s.Steady (s.poolConstant v).2 := by
  unfold poolConstant
  dsimp only
  split
  · exact steady_withChunk ..
  · exact (steady_withChunk ..).trans (steady_complainAt ..)

theorem steady_makeReadable (s : State) : s.Steady s.makeReadable := by
  unfold makeReadable
  split <;> exact .of_eq rfl rfl rfl

theorem steady_emit (s : State) (op : Opcode) (operands : List UInt8) :
    s.Steady (s.emit op operands) := by
  rw [emit_eq]
  exact .of_eq rfl rfl rfl

end State

/-! ## Rows at every point -/

/-- All that was written to a function are whole instructions. -/
def Builder.IsWhole (b : Builder) (ws : List Written) : Prop :=
  ∀ w ∈ ws, w.IsWhole b.chunk.constants

/-- If nothing was reported, each function under construction consists of whole
instructions, and so does each function that is finished. -/
structure Point.IsRowed (p : Point) : Prop where
  calm : p.state.IsCalm
  builders : p.state.IsQuiet → List.Forall₂ Builder.IsWhole (p.state.builder :: p.state.around)
    (p.written :: p.suspended)
  finished : ∀ done ∈ p.state.finished, ∃ ws, done.function.chunk.IsRow ws

theorem isRowed_start (firstId : Identity) (tokens : List Token) :
    (Point.start firstId tokens).IsRowed where
  calm _ := rfl
  builders _ := .cons (fun _ hw => absurd hw List.not_mem_nil) .nil
  finished _ hdone := absurd hdone (Array.not_mem_empty _)

namespace Point.IsRowed

variable {p : Point} {t : State} {ws : List Written}

/-- The current function may change as long as it consists of whole instructions. -/
theorem withBuilder (h : p.IsRowed) (hsteady : p.state.Steady t)
    (haround : t.around = p.state.around)
    (hwhole : p.state.IsQuiet → p.state.isRecovering = false → p.state.builder.IsWhole p.written →
      t.builder.IsWhole ws) : Point.IsRowed { p with state := t, written := ws } where
  calm := hsteady.calm h.calm
  builders hq := by
    have hquiet := hsteady.quiet hq
    have hold := h.builders hquiet
    show List.Forall₂ _ (t.builder :: t.around) _
    rw [haround]
    cases hold with
    | cons hb hrest => exact .cons (hwhole hquiet (h.calm hquiet) hb) hrest
  finished done hdone := h.finished done (hsteady.finished ▸ hdone)

/-- What is done beside the code and the constants does not matter. -/
theorem having (h : p.IsRowed) (hsteady : p.state.Steady t)
    (haround : t.around = p.state.around)
    (hconstants : t.builder.chunk.constants = p.state.builder.chunk.constants) :
    (p.having t).IsRowed :=
  h.withBuilder hsteady haround fun _ _ hwhole w hw => hconstants ▸ hwhole w hw

end Point.IsRowed

/-- An instruction more is a whole one. -/
theorem Builder.IsWhole.concat {b b' : Builder} {ws : List Written} {w : Written}
    (h : b.IsWhole ws) (hconstants : b'.chunk.constants = b.chunk.constants)
    (hw : w.IsWhole b.chunk.constants) : b'.IsWhole (ws ++ [w]) := by
  intro v hv
  rw [hconstants]
  rcases List.mem_append.mp hv with hold | hnew
  · exact h v hold
  · rwa [List.mem_singleton.mp hnew]

/-- A jump is as whole as before when its distance is filled in. -/
theorem Builder.IsWhole.refill {b b' : Builder} {before after : List Written} {op : Opcode}
    {old new : UInt8} {line : Nat} (h : b.IsWhole (before ++ ⟨op, [old], line⟩ :: after))
    (hconstants : b'.chunk.constants = b.chunk.constants) (hop : op ≠ .closure) :
    b'.IsWhole (before ++ ⟨op, [new], line⟩ :: after) := by
  intro v hv
  rw [hconstants]
  rcases List.mem_append.mp hv with hfront | hrest
  · exact h v (List.mem_append_left _ hfront)
  · rcases List.mem_cons.mp hrest with rfl | hback
    · have hold := h _ (List.mem_append_right _ List.mem_cons_self)
      unfold Written.IsWhole at hold ⊢
      rw [if_neg hop] at hold ⊢
      exact hold
    · exact h v (List.mem_append_right _ (List.mem_cons_of_mem _ hback))

/-- Functions around another one stay whole while that one is compiled. -/
theorem isWhole_idle {bs bs' : List Builder} {wss : List (List Written)}
    (h : List.Forall₂ Builder.IsWhole bs wss) (hidle : IdleAll bs bs') :
    List.Forall₂ Builder.IsWhole bs' wss := by
  induction hidle generalizing wss with
  | nil => exact h
  | cons hb _ ih =>
    cases h with
    | cons hwhole hrest =>
      refine .cons (fun w hw => ?_) (ih hrest)
      rw [hb.same]
      exact hwhole w hw

/-- A finished function consists of what was written to it. -/
theorem Builder.Fits.isRow {b : Builder} {ws : List Written} (h : b.Fits ws)
    (hwhole : b.IsWhole ws) : b.chunk.IsRow ws := ⟨h.code, h.lines, hwhole⟩

theorem rows_leave {p : Point} (hp : p.Fits) (h : p.IsRowed) (id : Identity) :
    ∀ done ∈ (p.state.leaveFunction (p.state.builder.finish id)).finished,
      ∃ ws, done.function.chunk.IsRow ws := by
  intro done hdone
  unfold State.leaveFunction at hdone
  dsimp only at hdone
  split at hdone
  · next hempty =>
    have hquiet : p.state.IsQuiet := Array.isEmpty_iff.mp hempty
    rcases Array.mem_push.mp hdone with hold | rfl
    · exact h.finished done hold
    · cases h.builders hquiet with
      | cons hwhole _ => exact ⟨p.written, hp.builder.isRow hwhole⟩
  · exact h.finished done hdone

/-- A guarded move keeps the rows. -/
theorem Move.rows {p q : Point} (move : Move p q) (hp : p.Fits) (h : p.IsRowed) : q.IsRowed := by
  cases move with
  | tick | checkpoint | openScope | closeScope | declare | parameter =>
    exact h.having (.of_eq rfl rfl rfl) rfl rfl
  | read =>
    obtain ⟨hbuilder, haround, -⟩ := p.state.read_keeps
    exact h.having p.state.steady_read haround (by rw [hbuilder])
  | complain t c =>
    exact h.having (p.state.steady_complainAt t c) (State.around_complainAt ..)
      (by rw [State.builder_complainAt])
  | settle =>
    refine ⟨fun _ => rfl, h.builders, h.finished⟩
  | emit op operands whole =>
    have heq := State.emit_eq p.state op operands
    refine h.withBuilder (p.state.steady_emit op operands) (by rw [heq]) fun hq hcalm hold => ?_
    exact hold.concat (by rw [heq]) (whole hq hcalm)
  | landJump before after op old line hw hjump =>
    have hb := hp.builder
    rw [hw] at hb
    obtain ⟨hbuilder, haround, -⟩ := p.state.landJump_keeps hb.landJump.1
    refine h.withBuilder (p.state.steady_landJump _) haround fun _ _ hold => ?_
    rw [hw] at hold
    refine hold.refill (by rw [hbuilder]) ?_
    rcases hjump with rfl | rfl <;> exact nofun
  | loopBack start inside =>
    obtain ⟨hbuilder, haround, -⟩ := p.state.loopBack_keeps inside
    refine h.withBuilder (p.state.steady_loopBack start) haround fun _ _ hold => ?_
    refine hold.concat (by rw [hbuilder, State.emit_eq]) ?_
    unfold Written.IsWhole
    rw [if_neg nofun]
    rfl
  | pool v =>
    obtain ⟨hbuilder, haround, -⟩ := p.state.poolConstant_keeps v
    refine h.withBuilder (p.state.steady_poolConstant v) haround fun _ _ hold w hw => ?_
    refine (hold w hw).mono fun k v' hv' => ?_
    rw [hbuilder]
    exact getElem_push_of_some hv' v
  | capture name found hfound =>
    have htraced := traced_captureFrom hfound hp.builders hp.captures
    exact ⟨h.calm, fun hq => isWhole_idle (h.builders hq) (.cons htraced.idles htraced.around),
      h.finished⟩
  | makeReadable =>
    refine h.having p.state.steady_makeReadable p.state.makeReadable_keeps.1 ?_
    unfold State.makeReadable
    split <;> rfl
  | enter name =>
    exact ⟨h.calm, fun hq => .cons (fun _ hw => absurd hw List.not_mem_nil) (h.builders hq),
      h.finished⟩
  | leave hne =>
    refine ⟨h.calm, fun hq => ?_, rows_leave hp h _⟩
    obtain ⟨outer, outers, houters⟩ := List.exists_cons_of_ne_nil hne
    have hbuilders := h.builders hq
    rw [houters] at hbuilders
    unfold State.leaveFunction
    rw [houters]
    generalize p.suspended = wss at hbuilders
    cases hbuilders with
    | cons _ hrest =>
      cases hrest with
      | cons houter hrest => exact .cons houter hrest

theorem Moves.rows {p q : Point} (h : Moves p q) (hp : p.Fits) (hrows : p.IsRowed) :
    q.IsRowed := by
  induction h with
  | refl => exact hrows
  | tail hmoves move ih => exact move.rows (Moves.fits hmoves hp) ih

/-- Each function that was finished before anything was reported is a row of whole
instructions. -/
theorem exists_isRow_of_finished {firstId : Identity} {source : String} {done : Finished}
    (hdone : done ∈ (compile firstId source).finished) :
    ∃ ws, done.function.chunk.IsRow ws := by
  have hstart : (Point.start firstId (scan source)).Fits := fits_initial ..
  obtain ⟨written, hwalk⟩ := walks_script firstId (scan source)
  exact rows_leave (hwalk.fits hstart) (Moves.rows hwalk.moves hstart (isRowed_start ..)) _
    done hdone

end Compile

end ScriptEngine
