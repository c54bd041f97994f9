import ScriptEngine.Proofs.Compile.ProgramCode
import ScriptEngine.Proofs.Machine.Natives
import ScriptEngine.Machine.Run
set_option autoImplicit false

/-!
# Machine: frames with known layouts

A compiled function comes with the layout of its frames at each instruction
(`Typing`).  A library is a set of such functions, closed under what is in their
pools (`Library`); all functions that any source compiles to make one
(`Library.compiled`).

Beside compiled code a program may come by whatever the natives of its host make up.
A library therefore says which closures there can be (`Library.Allows`): only those
that compiled code makes (`Library.exact`), any of the functions in it
(`Library.IsStrict`), or any at all (`Library.amongAll`).  A value is sound if it is
one of these, and a machine is sound if all its values are, if the natives give no
others, and if each suspended frame of the library waits for one more value than it
holds.
-/

namespace ScriptEngine

open Compile

/-! ## Functions -/

/-- The layouts of a function's frames. -/
structure Typing (f : Function Value) where
  layouts : Layouts
  /-- Where the frame holds the locals in scope and nothing else. -/
  marks : List Checkpoint
  /-- The layout in which the function is entered. -/
  first : Layout
  /-- The layout behind the code, which is never reached. -/
  last : Layout
  length_first : first.length = f.arity + 1
  callee_first : first.getLast? = some .callee
  size_lines : f.chunk.lines.size = f.chunk.code.size
  draft : Draft ⟨f.chunk, f.captureCount, marks⟩ layouts ⟨last, True⟩ [(0, first)] []

theorem Compile.Finished.IsSound.exists_typing {done : Finished} (h : done.IsSound) :
    ∃ t : Typing done.function, t.marks = done.checkpoints := by
  obtain ⟨H, Γ, Δ, hlen, hlast, hlines, hdraft⟩ := h
  exact ⟨⟨H, done.checkpoints, Γ, Δ, hlen, hlast, hlines, hdraft⟩, rfl⟩

namespace Typing

variable {f : Function Value}

/-- The code ends in a return. -/
theorem ends (t : Typing f) : ∃ o Γ, t.layouts o = some Γ ∧ o + 1 = f.chunk.code.size ∧
    f.chunk.Holds o [Opcode.return.toByte] :=
  t.draft.ends trivial

theorem size_pos (t : Typing f) : 0 < f.chunk.code.size := by
  obtain ⟨o, Γ, -, hend, -⟩ := t.ends
  exact Nat.lt_of_lt_of_eq (Nat.succ_pos o) hend

theorem start (t : Typing f) :
    ∃ Γ, t.layouts 0 = some Γ ∧ Γ.length = f.arity + 1 := by
  rcases t.draft.labels (0, t.first) List.mem_cons_self with ⟨Γ, hΓ, hw⟩ | ⟨hsize, -⟩
  · exact ⟨Γ, hΓ, hw.length_eq.symm.trans t.length_first⟩
  · exact absurd hsize (Nat.ne_of_lt t.size_pos)

/-- There is an instruction at each offset with a layout, and it leads to offsets
with layouts that allow it. -/
theorem instruction (t : Typing f) {o : Nat} {Γ : Layout} (h : t.layouts o = some Γ) :
    ∃ op operands after, f.chunk.Holds o (op.toByte :: operands) ∧
      Effect f.chunk.constants f.captureCount (o + 1 + operands.length) op operands Γ after ∧
      ∀ x ∈ after, t.layouts.Admits x := by
  obtain ⟨op, operands, hst, hor⟩ := t.draft.step o Γ h
  rcases hor with ⟨⟨after, heff, hafter⟩, -⟩ | ⟨-, hmem⟩
  · refine ⟨op, operands, after, hst.holds, heff, fun x hx => ?_⟩
    exact (hafter x hx).resolve_right fun ⟨_, _, hopen⟩ => hopen trivial
  · exact absurd hmem List.not_mem_nil

end Typing

/-- A set of functions with known layouts. -/
structure Library where
  Has : Function Value → Prop
  typing : ∀ f, Has f → Typing f
  closed : ∀ f, Has f → ∀ g, .function g ∈ f.chunk.constants → Has g
  /-- There can be closures of the function with so many cells. -/
  Allows : Function Value → Nat → Prop
  allows : ∀ f, Has f → Allows f f.captureCount

/-- The function was finished in a compilation that succeeded. -/
def Compile.Finished.IsCompiled (done : Finished) : Prop :=
  ∃ firstId source script, (compile firstId source).outcome = .ok script ∧
    done ∈ (compile firstId source).finished

theorem Compile.Finished.IsCompiled.isSound {done : Finished} (h : done.IsCompiled) :
    done.IsSound := by
  obtain ⟨firstId, source, script, hok, hdone⟩ := h
  exact (succeeds_of_compile hok).sound done hdone

/-- The function was finished in a compilation that succeeded. -/
def Function.IsCompiled (f : Function Value) : Prop :=
  ∃ done : Finished, done.IsCompiled ∧ done.function = f

/-- What is in the pool of a compiled function is compiled. -/
theorem Function.IsCompiled.closed {f g : Function Value} (h : f.IsCompiled)
    (hg : .function g ∈ f.chunk.constants) : g.IsCompiled := by
  obtain ⟨done, ⟨firstId, source, script, hok, hdone⟩, rfl⟩ := h
  obtain ⟨done', hdone', hf⟩ := (succeeds_of_compile hok).closed done hdone g hg
  exact ⟨done', ⟨firstId, source, script, hok, hdone'⟩, hf⟩

/-- The script of a source is compiled. -/
theorem isCompiled_of_compile {firstId : Identity} {source : String} {script : Function Value}
    (hok : (compile firstId source).outcome = .ok script) : script.IsCompiled := by
  obtain ⟨done, hdone, hf⟩ := (succeeds_of_compile hok).finished
  exact ⟨done, ⟨firstId, source, script, hok, hdone⟩, hf⟩

/-- The typing says where there are locals in scope just as the compiler does. -/
def Typing.IsOfCompiled {f : Function Value} (t : Typing f) : Prop :=
  ∃ done : Finished, done.IsCompiled ∧ done.function = f ∧ t.marks = done.checkpoints

theorem exists_isOfCompiled {f : Function Value} (h : f.IsCompiled) :
    ∃ t : Typing f, t.IsOfCompiled := by
  obtain ⟨done, hdone, rfl⟩ := h
  obtain ⟨t, ht⟩ := hdone.isSound.exists_typing
  exact ⟨t, done, hdone, rfl, ht⟩

namespace Library

/-- Everything that compiles, with `f` typed by `t`. -/
noncomputable def compiled {f : Function Value} (t : Typing f) : Library where
  Has := Function.IsCompiled
  typing g h :=
    open Classical in
    if heq : f = g then heq ▸ t else (exists_isOfCompiled h).choose
  closed _ h _ := h.closed
  Allows g _ := g.IsCompiled
  allows _ h := h

/-- The same functions, of which closures have just the cells that they capture. -/
def exact (L : Library) : Library :=
  { L with
    Allows f n := L.Has f ∧ n = f.captureCount
    allows _ h := ⟨h, rfl⟩ }

/-- The same functions among any others. -/
def amongAll (L : Library) : Library :=
  { L with
    Allows _ _ := True
    allows _ _ := trivial }

/-- There are no functions but those in the library. -/
def IsStrict (L : Library) : Prop := ∀ f n, L.Allows f n → L.Has f

/-- There are only such closures as code in the library makes. -/
def IsExact (L : Library) : Prop := ∀ f n, L.Allows f n → L.Has f ∧ n = f.captureCount

theorem isExact_exact (L : Library) : L.exact.IsExact := fun _ _ h => h

theorem IsExact.isStrict {L : Library} (h : L.IsExact) : L.IsStrict := fun f n hfn => (h f n hfn).1

variable {f g : Function Value} {t : Typing f}

theorem typing_compiled (t : Typing f) (h : (compiled t).Has f) :
    (compiled t).typing f h = t := by
  unfold compiled
  simp

theorem isOfCompiled_typing (ht : t.IsOfCompiled) (h : (compiled t).Has g) :
    ((compiled t).typing g h).IsOfCompiled := by
  by_cases heq : f = g
  · subst heq
    rwa [typing_compiled]
  · have htyping : (compiled t).typing g h = (exists_isOfCompiled h).choose := dif_neg heq
    rw [htyping]
    exact (exists_isOfCompiled h).choose_spec

end Library

/-! ## Values -/

/-- A value that can be called is one that there can be. -/
def Value.IsSound (L : Library) (v : Value) : Prop :=
  ∀ f cells, v.code? = some (f, cells) → L.Allows f cells.size

/-- The code in the value is compiled. -/
def Value.IsCompiled (v : Value) : Prop := ∀ f cells, v.code? = some (f, cells) → f.IsCompiled

theorem Value.isCompiled_of_isPlain {v : Value} (h : v.isPlain = true) : v.IsCompiled :=
  fun _ _ hcode => nomatch (code_of_isPlain h).symm.trans hcode

namespace Value.IsSound

variable {L : Library} {v : Value}

theorem of_code (h : v.code? = none) : v.IsSound L := fun _ _ hcode => nomatch h.symm.trans hcode

theorem of_isPlain (h : v.isPlain = true) : v.IsSound L := of_code (code_of_isPlain h)

theorem of_isLiteral (h : v.isLiteral = true) : v.IsSound L := by
  refine of_code ?_
  cases v <;> first | rfl | cases h

theorem of_closure {c : Closure Value} (h : L.Allows c.function c.cells.size) :
    (Value.closure c).IsSound L := by
  rintro _ _ hcode
  cases hcode
  exact h

theorem of_function {f : Function Value} (h : L.Allows f 0) : (Value.function f).IsSound L := by
  rintro _ _ hcode
  cases hcode
  exact h

end Value.IsSound

/-! ## Frames and machines -/

/-- A frame that is at an instruction with a layout. -/
structure Frame.At (L : Library) (f : Frame) (Γ : Layout) : Prop where
  has : L.Has f.function
  layout : (L.typing f.function has).layouts f.ip = some Γ
  allowed : L.Allows f.function f.cells.size
  values : ∀ v ∈ f.slots, v.IsSound L

/-- The frame that is running has just the slots of the layout. -/
structure Frame.Runs (L : Library) (f : Frame) (Γ : Layout) : Prop extends Frame.At L f Γ where
  size : f.slots.size = Γ.length

/-- A suspended frame lacks the value that it waits for. -/
structure Frame.Waits (L : Library) (f : Frame) (Γ : Layout) : Prop extends Frame.At L f Γ where
  size : f.slots.size + 1 = Γ.length

/-- The frame has the slots of its layout, if the library has its function. -/
structure Frame.MayRun (L : Library) (f : Frame) : Prop where
  allowed : L.Allows f.function f.cells.size
  runs : L.Has f.function → ∃ Γ, f.Runs L Γ

/-- The same of a suspended frame. -/
structure Frame.MayWait (L : Library) (f : Frame) : Prop where
  allowed : L.Allows f.function f.cells.size
  waits : L.Has f.function → ∃ Γ, f.Waits L Γ

/-- The machine beside the frame that is running. -/
structure Machine.IsSound {World : Type} (L : Library) (host : Host World) (m : Machine World) :
    Prop where
  globals : ∀ name v, m.globals.get? name = some v → v.IsSound L
  cells : ∀ v ∈ m.store.cells, v.IsSound L
  callers : ∀ f ∈ m.callers, f.MayWait L
  natives : host.Gives (Value.IsSound L) m.world

namespace Store

theorem isSound_read {L : Library} {s : Store} (h : ∀ v ∈ s.cells, v.IsSound L) (c : Cell) :
    (s.read c).IsSound L := by
  unfold read
  cases hv : s.cells[c.index]? with
  | none => exact .of_code rfl
  | some v => exact h v (Array.mem_of_getElem? hv)

theorem isSound_write {L : Library} {s : Store} (h : ∀ v ∈ s.cells, v.IsSound L) (c : Cell)
    {v : Value} (hv : v.IsSound L) : ∀ w ∈ (s.write c v).cells, w.IsSound L := by
  intro w hw
  rcases Array.mem_or_eq_of_mem_setIfInBounds hw with hold | rfl
  · exact h w hold
  · exact hv

theorem isSound_alloc {L : Library} {s : Store} (h : ∀ v ∈ s.cells, v.IsSound L) {v : Value}
    (hv : v.IsSound L) : ∀ w ∈ (s.alloc v).2.cells, w.IsSound L := by
  intro w hw
  rcases Array.mem_push.mp hw with hold | rfl
  · exact h w hold
  · exact hv

end Store

end ScriptEngine
