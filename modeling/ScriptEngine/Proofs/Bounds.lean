import ScriptEngine.Proofs.Compile.StatementWalk
import ScriptEngine.Proofs.Lexis.Tiling
set_option autoImplicit false

/-!
# Bounds: a compilation that never breaks off

Whatever the source is, no guarantee of the compiler is ever broken, before as well as
after a mistake in the source (`compile_in_bounds`).  A compilation is a chain of guarded
moves (`Move`), whose guards are these guarantees: only a scope that was opened is
closed, and the callee stays in its slot; only a jump that was written to the same
function is landed; a loop does not start behind its end; a function is left only for
one around it.  All along the way everything has its bounds, and every number that
becomes a byte is one (`State.InBounds`).
-/

namespace ScriptEngine.Compile

/-! ## Defects stay -/

namespace State

theorem defects_guarantee (s : State) (holds : Bool) (d : Defect) :
    s.defects <:+ (s.guarantee holds d).defects := by
  unfold guarantee
  split
  · exact List.suffix_rfl
  · exact List.suffix_cons ..

theorem defects_landJump (s : State) (operand : Nat) :
    s.defects <:+ (s.landJump operand).defects := by
  refine (defects_guarantee s (operand < s.codeSize) .landedNoJump).trans ?_
  unfold landJump
  dsimp only
  split
  · exact List.suffix_rfl
  · exact (defects_complainAt ..).symm ▸ List.suffix_rfl

theorem defects_loopBack (s : State) (start : Nat) :
    s.defects <:+ (s.loopBack start).defects := by
  refine (defects_guarantee s (start ≤ s.codeSize) .loopStartsLate).trans ?_
  unfold loopBack
  dsimp only
  split
  · exact List.suffix_rfl
  · exact (defects_complainAt ..).symm ▸ List.suffix_rfl

theorem Edit.defects_suffix {s t : State} (h : Edit s t) : s.defects <:+ t.defects := by
  cases h with
  | read => exact s.read_keeps.2.2 ▸ List.suffix_rfl
  | complain => exact defects_complainAt .. ▸ List.suffix_rfl
  | note => exact List.suffix_cons ..
  | landJump operand => exact defects_landJump s operand
  | loopBack start => exact defects_loopBack s start
  | pool v => exact (s.poolConstant_keeps v).2.2.1 ▸ List.suffix_rfl
  | _ => exact List.suffix_rfl

theorem Action.defects_suffix {s t : State} (h : Action s t) : s.defects <:+ t.defects := by
  cases h with
  | edit h => exact h.defects_suffix
  | _ => exact List.suffix_rfl

/-- A defect that is noted stays. -/
theorem Actions.defects_suffix {s t : State} (h : Actions s t) : s.defects <:+ t.defects := by
  induction h with
  | refl => exact List.suffix_rfl
  | tail _ act ih => exact ih.trans act.defects_suffix

end State

/-! ## Bounds of a state -/

/-- The number is written as a byte without loss. -/
def FitsByte (n : Nat) : Prop := n.toUInt8.toNat = n

theorem fitsByte_of_lt {n : Nat} (h : n < byteRange) : FitsByte n := Nat.mod_eq_of_lt h

/-- A function under construction keeps its callee and has its bounds. -/
structure Builder.InBounds (b : Builder) : Prop where
  /-- The oldest local is the callee. -/
  callee : ∃ l, fromOldest? b.locals 0 = some l ∧ l.name = "" ∧ l.depth = some 0
  locals : b.locals.length ≤ byteRange
  captures : b.captures.length ≤ byteRange
  arity : b.arity ≤ maxArguments
  /-- Each byte has a line. -/
  lines : b.chunk.lines.size = b.chunk.code.size
  /-- The slot that a name refers to. -/
  slot : ∀ name i l, slotOf? name b.locals = some (i, l) → FitsByte i
  /-- The position of a capture, also of a new one. -/
  position : ∀ c i b', b.addCapture? c = some (i, b') → FitsByte i

/-- A capture is of a local or a capture that the function around has. -/
def Capture.InBounds (inner outer : Builder) : Prop :=
  ∀ c ∈ inner.captures, Capture.InRange c outer ∧ FitsByte c.index

/-- All functions under construction have their bounds, and so has each number that is
to become a byte. -/
structure State.InBounds (s : State) : Prop where
  builders : ∀ b ∈ s.builder :: s.around, b.InBounds
  captures : (s.builder :: s.around).IsChain Capture.InBounds
  constant : ∀ v, FitsByte (s.poolConstant v).1
  arguments : ∀ depth, FitsByte (arguments depth 0 s).1

theorem Builder.Fits.inBounds {b : Builder} {ws : List Written} (h : b.Fits ws) :
    b.InBounds where
  callee := h.callee
  locals := h.locals
  captures := h.captures
  arity := h.arity
  lines := by
    rw [← Array.length_toList, ← Array.length_toList, h.code, h.lines, List.length_flatMap,
      List.length_flatMap]
    simp only [Written.length_lines]
  slot _ _ _ hslot := fitsByte_of_lt (Nat.lt_of_lt_of_le (slotOf_lt hslot) h.locals)
  position _ _ _ hadd :=
    have hspec := addCapture_spec hadd h.captures
    fitsByte_of_lt (Nat.lt_of_lt_of_le hspec.2.2.1 hspec.2.1)

theorem Capture.InRange.fitsByte {c : Capture} {outer : Builder} {ws : List Written}
    (h : Capture.InRange c outer) (hfits : outer.Fits ws) : FitsByte c.index := by
  unfold Capture.InRange at h
  split at h
  · exact fitsByte_of_lt (Nat.lt_of_lt_of_le h hfits.locals)
  · exact fitsByte_of_lt (Nat.lt_of_lt_of_le h hfits.captures)

/-- The function around bears out what is captured. -/
theorem isChain_inBounds {bs : List Builder} {wss : List (List Written)}
    (h : List.Forall₂ Builder.Fits bs wss) (hchain : bs.IsChain Builder.CapturesFrom) :
    bs.IsChain Capture.InBounds := by
  induction h with
  | nil => exact .nil
  | cons _ hrest ih =>
    cases hrest with
    | nil => exact .singleton _
    | cons houter _ =>
      obtain ⟨hfrom, hchain⟩ := List.isChain_cons_cons.mp hchain
      exact List.isChain_cons_cons.mpr
        ⟨fun c hc => ⟨hfrom c hc, (hfrom c hc).fitsByte houter⟩, ih hchain⟩

theorem Point.Fits.inBounds {p : Point} (h : p.Fits) : p.state.InBounds where
  builders b hb := by
    obtain ⟨i, hi, rfl⟩ := List.getElem_of_mem hb
    exact (h.builders.get hi (h.builders.length_eq ▸ hi)).inBounds
  captures := isChain_inBounds h.builders h.captures
  constant v := fitsByte_of_lt (p.state.poolConstant_keeps v).2.2.2
  arguments depth :=
    fitsByte_of_lt (Nat.lt_succ_of_le (count_arguments_le depth (Nat.zero_le _) p.state))

/-! ## Compilations -/

/-- A compilation is a chain of guarded moves, from the first token to the script's last
return.  Every point that such moves lead to has its bounds; no defect is noted at any
state on the way; no token is on a line that the source does not have; and no line number
wraps in a source with fewer than 2^32 - 1 line breaks. -/
theorem compile_in_bounds (firstId : Identity) (source : String) :
    let start := Point.start firstId (scan source)
    let compiled := (compileTokens firstId (scan source)).returnNil
    (∃ written, Moves start ⟨compiled, written, []⟩) ∧
      compiled.around = [] ∧ compiled.builder.depth = 0 ∧
      (∀ p, Moves start p → p.state.InBounds ∧ p.state.defects = []) ∧
      (∀ s, State.Actions start.state s → State.Actions s compiled → s.defects = []) ∧
      (∀ t ∈ scan source, t.line ≤ source.toList.count '\n' + 1) ∧
      (source.toList.count '\n' < 2 ^ 32 - 1 → ∀ text, text <+: source.toList →
        lineAtEnd text = 1 + text.count '\n') := by
  intro start compiled
  have hstart : start.Fits := fits_initial ..
  obtain ⟨written, hwalk⟩ : Walks 2 start compiled := walks_script firstId (scan source)
  have hdefects : compiled.defects = [] := Moves.defects hwalk.moves hstart
  refine ⟨⟨written, hwalk.moves⟩, List.forall₂_nil_left_iff.mp hwalk.around, hwalk.depth,
    fun p hp => ?_, fun s _ hs => ?_, line_scan_le source,
    fun hfew _ htext => lineAtEnd_of_prefix htext hfew⟩
  · exact ⟨(Moves.fits hp hstart).inBounds, Moves.defects hp hstart⟩
  · exact List.suffix_nil.mp (hdefects ▸ State.Actions.defects_suffix hs)

end ScriptEngine.Compile
