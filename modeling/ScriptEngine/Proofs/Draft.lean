import ScriptEngine.Proofs.Layout
import Mathlib.Logic.Function.Basic
set_option autoImplicit false

/-!
# Drafts of code

While the code of a function is being written, each instruction already has the
layout of the frames that will carry it out, some jumps do not have their
distance yet, and control may be about to run off the end.  A draft says that
all this fits together (`Draft`): an instruction leads to instructions whose
layout allows it, or to the end of the code, or it is one of the open jumps.

Each way of writing code turns a draft into a draft: an instruction is written
(`Draft.emit`), a jump is opened (`Draft.openJump`) or landed (`Draft.landJump`).
-/

namespace ScriptEngine

open Compile

/-! ## Bytes of code -/

/-- These bytes stand at an offset of the code. -/
def Chunk.Holds {Constant : Type} (c : Chunk Constant) (o : Nat) (bytes : List UInt8) :
    Prop :=
  ∀ i b, bytes[i]? = some b → c.code[o + i]? = some b

theorem Chunk.Holds.lt_size {Constant : Type} {c : Chunk Constant} {o : Nat}
    {bytes : List UInt8} (h : c.Holds o bytes) {i : Nat} (hi : i < bytes.length) :
    o + i < c.code.size := by
  have hbyte := h i bytes[i] (List.getElem?_eq_getElem hi)
  exact (Array.getElem?_eq_some_iff.mp hbyte).1

/-- Bytes stay where they are when code is written behind them. -/
theorem Chunk.Holds.append {Constant : Type} {c c' : Chunk Constant} {o : Nat}
    {bytes more : List UInt8} (h : c.Holds o bytes)
    (hcode : c'.code = c.code ++ more.toArray) : c'.Holds o bytes := by
  intro i b hb
  have hc := h i b hb
  obtain ⟨hlt, -⟩ := Array.getElem?_eq_some_iff.mp hc
  rw [hcode, Array.getElem?_append_left hlt, hc]

theorem Chunk.holds_of_append {Constant : Type} {c c' : Chunk Constant}
    {bytes : List UInt8} (hcode : c'.code = c.code ++ bytes.toArray) :
    c'.Holds c.code.size bytes := by
  intro i b hb
  rw [hcode, Array.getElem?_append_right (Nat.le_add_right _ _), Nat.add_sub_cancel_left]
  simpa using hb

/-- How many locals were in scope where an offset was written: as many as at the
last checkpoint that is not behind it. -/
def localsAt : List Checkpoint → Nat → Nat
  | [], _ => 0
  | m :: older, o => if m.offset ≤ o then m.locals else localsAt older o

/-- The code of a function, finished or not, with what is known of its frame. -/
structure Code where
  chunk : Chunk Value
  captureCount : Nat
  /-- Newest first. -/
  checkpoints : List Checkpoint

/-- How many bytes there are. -/
def Code.size (c : Code) : Nat := c.chunk.code.size

/-- One code has all that an instruction of the other may refer to. -/
structure Code.Provides (c' c : Code) : Prop where
  pool : ∀ (k : Nat) (v : Value), c.chunk.constants[k]? = some v →
    c'.chunk.constants[k]? = some v
  captureCount : c.captureCount ≤ c'.captureCount

/-- The layout of each instruction, by its offset. -/
abbrev Layouts : Type := Nat → Option Layout

namespace Layouts

/-- There is an instruction at an offset, and its layout allows another one. -/
def Admits (H : Layouts) (x : Nat × Layout) : Prop :=
  ∃ Γ, H x.1 = some Γ ∧ x.2.Widens Γ

theorem admits_update {H : Layouts} {o : Nat} {Γ : Layout} (hne : ∀ Δ, H o ≠ some Δ)
    {x : Nat × Layout} (h : H.Admits x) :
    Admits (Function.update H o (some Γ)) x := by
  obtain ⟨Δ, hΔ, hw⟩ := h
  refine ⟨Δ, ?_, hw⟩
  rw [Function.update_of_ne, hΔ]
  intro heq
  exact hne Δ (heq ▸ hΔ)

theorem admits_update_self {H : Layouts} {o : Nat} {Γ Δ : Layout} (h : Δ.Widens Γ) :
    Admits (Function.update H o (some Γ)) (o, Δ) :=
  ⟨Γ, Function.update_self .., h⟩

end Layouts

/-! ## Drafts -/

/-- An instruction stands at `o`, none starts within it, and one starts behind
it unless the code ends there. -/
structure Stands (c : Code) (H : Layouts) (o : Nat) (op : Opcode)
    (operands : List UInt8) : Prop where
  holds : c.chunk.Holds o (op.toByte :: operands)
  apart : ∀ j, 0 < j → j ≤ operands.length → H (o + j) = none
  tight : o + 1 + operands.length = c.size ∨ (H (o + 1 + operands.length)).isSome

/-- What is known at the end of code that is being written. -/
structure Edge where
  /-- The layout that an instruction written next will have. -/
  layout : Layout
  /-- Control does not run off the end. -/
  isSealed : Prop

/-- An offset can be gone to in a layout. -/
def Layouts.Leads (H : Layouts) (c : Code) (e : Edge) (x : Nat × Layout) : Prop :=
  H.Admits x ∨ (x.1 = c.size ∧ x.2.Widens e.layout ∧ ¬ e.isSealed)

/-- The instruction at `o` is complete, and all that it leads to allows it. -/
def Closed (c : Code) (H : Layouts) (e : Edge) (o : Nat) (op : Opcode)
    (operands : List UInt8) (Γ : Layout) : Prop :=
  ∃ after, Effect c.chunk.constants c.captureCount (o + 1 + operands.length) op operands
    Γ after ∧ ∀ x ∈ after, H.Leads c e x

/-- The instruction at `o` is a jump that is still open; a conditional one may go
on behind it. -/
def Pending (c : Code) (H : Layouts) (e : Edge) (o : Nat) (op : Opcode)
    (operands : List UInt8) (Γ : Layout) : Prop :=
  operands.length = 1 ∧
    (op = .jump ∨
      (op = .jumpIfFalse ∧ (∃ Δ, Γ = .temporary :: Δ) ∧ H.Leads c e (o + 2, Γ)))

/-- The layout of each instruction fits the ones that it leads to.  `labels` are
the places that loops go back to, and `pending` the operands of open jumps. -/
structure Draft (c : Code) (H : Layouts) (e : Edge) (labels pending : List (Nat × Layout)) :
    Prop where
  inside : ∀ o Γ, H o = some Γ → o < c.size
  start : c.size = 0 ∨ (H 0).isSome
  step : ∀ o Γ, H o = some Γ → ∃ op operands, Stands c H o op operands ∧
    ((Closed c H e o op operands Γ ∧ ∀ x ∈ pending, x.1 ≠ o + 1) ∨
      (Pending c H e o op operands Γ ∧ (o + 1, Γ) ∈ pending))
  opened : ∀ x ∈ pending, ∃ o, x.1 = o + 1 ∧ H o = some x.2
  labels : ∀ x ∈ labels, H.Admits x ∨ (x.1 = c.size ∧ x.2.Widens e.layout)
  marks : ∀ m ∈ c.checkpoints, (m.offset = c.size ∧ e.layout.length = m.locals) ∨
    ∃ Γ, H m.offset = some Γ ∧ Γ.length = m.locals
  declared : ∀ o Γ i b, H o = some Γ → fromOldest? Γ i = some (.variable b) →
    0 < i ∧ i < localsAt c.checkpoints o
  ends : e.isSealed → ∃ o Γ, H o = some Γ ∧ o + 1 = c.size ∧
    c.chunk.Holds o [Opcode.return.toByte]

section Steps

variable {c c' : Code} {H H' : Layouts} {e e' : Edge} {o : Nat} {op : Opcode}
  {operands : List UInt8} {Γ : Layout}

theorem Closed.mono (h : Closed c H e o op operands Γ) (hprov : c'.Provides c)
    (hleads : ∀ x, H.Leads c e x → H'.Leads c' e' x) :
    Closed c' H' e' o op operands Γ := by
  obtain ⟨after, heff, hafter⟩ := h
  exact ⟨after, heff.mono hprov.pool hprov.captureCount, fun x hx => hleads x (hafter x hx)⟩

theorem Pending.mono (h : Pending c H e o op operands Γ)
    (hleads : ∀ x, H.Leads c e x → H'.Leads c' e' x) :
    Pending c' H' e' o op operands Γ := by
  obtain ⟨hlen, hop⟩ := h
  refine ⟨hlen, ?_⟩
  rcases hop with hop | ⟨hop, hΔ, hlead⟩
  · exact .inl hop
  · exact .inr ⟨hop, hΔ, hleads _ hlead⟩

end Steps

namespace Draft

variable {c c' : Code} {H : Layouts} {e e' : Edge} {labels pending pending' :
  List (Nat × Layout)}

theorem ne_some_size (d : Draft c H e labels pending) (Γ : Layout) : H c.size ≠ some Γ :=
  fun h => Nat.lt_irrefl _ (d.inside _ _ h)

theorem pending_le (d : Draft c H e labels pending) {x : Nat × Layout} (hx : x ∈ pending) :
    x.1 ≤ c.size := by
  obtain ⟨o, ho, hH⟩ := d.opened x hx
  have := d.inside _ _ hH
  omega

/-! ### Changes beside the code -/

/-- A draft stays one when constants, captures or labels are added or dropped
beside the code, and when the layout at its end is widened. -/
theorem mono (d : Draft c H e labels pending) (hcode : c'.chunk.code = c.chunk.code)
    (hprov : c'.Provides c) (hmarks : c'.checkpoints = c.checkpoints)
    (hlayout : e.layout.Widens e'.layout) (hsealed : e'.isSealed → e.isSealed)
    {labels' : List (Nat × Layout)}
    (hlabels : ∀ x ∈ labels', x ∈ labels ∨ x = (c.size, e.layout)) :
    Draft c' H e' labels' pending := by
  have hsize : c'.size = c.size := by simp [Code.size, hcode]
  have hleads : ∀ x, H.Leads c e x → H.Leads c' e' x := by
    rintro x (hx | ⟨h1, h2, h3⟩)
    · exact .inl hx
    · exact .inr ⟨hsize ▸ h1, h2.trans hlayout, fun hs => h3 (hsealed hs)⟩
  refine ⟨?_, hsize ▸ d.start, ?_, d.opened, ?_, ?_, ?_, ?_⟩
  · rw [hsize]
    exact d.inside
  · intro o Γ hΓ
    obtain ⟨op, operands, hst, hor⟩ := d.step o Γ hΓ
    refine ⟨op, operands, ⟨?_, hst.apart, hsize ▸ hst.tight⟩, ?_⟩
    · intro i b hb
      rw [hcode]
      exact hst.holds i b hb
    · rcases hor with ⟨hclosed, hne⟩ | ⟨hpend, hmem⟩
      · exact .inl ⟨hclosed.mono hprov hleads, hne⟩
      · exact .inr ⟨hpend.mono hleads, hmem⟩
  · intro x hx
    rw [hsize]
    rcases hlabels x hx with hx | rfl
    · rcases d.labels x hx with h | ⟨h1, h2⟩
      · exact .inl h
      · exact .inr ⟨h1, h2.trans hlayout⟩
    · exact .inr ⟨rfl, hlayout⟩
  · rw [hmarks, hsize, ← hlayout.length_eq]
    exact d.marks
  · rw [hmarks]
    exact d.declared
  · intro hs
    obtain ⟨o, Γ, hΓ, hend, hbyte⟩ := d.ends (hsealed hs)
    refine ⟨o, Γ, hΓ, hsize ▸ hend, fun i b hb => ?_⟩
    rw [hcode]
    exact hbyte i b hb

/-- Where the frame holds nothing but locals, a checkpoint may be noted. -/
theorem checkpoint (d : Draft c H e labels pending) :
    Draft { c with checkpoints := ⟨c.size, e.layout.length⟩ :: c.checkpoints } H e
      labels pending where
  inside := d.inside
  start := d.start
  step o Γ hΓ := by
    obtain ⟨op, operands, hst, hor⟩ := d.step o Γ hΓ
    exact ⟨op, operands, ⟨hst.holds, hst.apart, hst.tight⟩, hor⟩
  opened := d.opened
  labels := d.labels
  marks m hm := by
    rcases List.mem_cons.mp hm with rfl | hm
    · exact .inl ⟨rfl, rfl⟩
    · exact d.marks m hm
  declared o Γ i b hΓ hi := by
    have hlt := d.inside o Γ hΓ
    rw [localsAt, if_neg (by simpa using hlt)]
    exact d.declared o Γ i b hΓ hi
  ends := d.ends

/-! ### Writing code -/

/-- What is written behind a draft makes a draft if the new instruction fits. -/
theorem extend (d : Draft c H e labels pending) {op : Opcode} {operands : List UInt8}
    (hcode : c'.chunk.code = c.chunk.code ++ (op.toByte :: operands).toArray)
    (hprov : c'.Provides c) (hmarks : c'.checkpoints = c.checkpoints)
    (hdecl : ∀ i b, fromOldest? e.layout i = some (.variable b) →
      0 < i ∧ i < localsAt c.checkpoints c.size)
    (hpending : ∀ x ∈ pending', x ∈ pending ∨ x = (c.size + 1, e.layout))
    (hkept : ∀ x ∈ pending, x ∈ pending')
    (hnew : (Closed c' (Function.update H c.size (some e.layout)) e' c.size op operands
        e.layout ∧ ∀ x ∈ pending', x.1 ≠ c.size + 1) ∨
      (Pending c' (Function.update H c.size (some e.layout)) e' c.size op operands
        e.layout ∧ (c.size + 1, e.layout) ∈ pending'))
    (hsealed : e'.isSealed → op = .return ∧ operands = []) :
    Draft c' (Function.update H c.size (some e.layout)) e' labels pending' := by
  have hsize : c'.size = c.size + 1 + operands.length := by
    simp [Code.size, hcode]
    omega
  have hold : ∀ o Γ, H o = some Γ →
      Function.update H c.size (some e.layout) o = some Γ := by
    intro o Γ hΓ
    rw [Function.update_of_ne, hΓ]
    intro heq
    exact d.ne_some_size Γ (heq ▸ hΓ)
  have hadmits : ∀ x, H.Admits x →
      Layouts.Admits (Function.update H c.size (some e.layout)) x :=
    fun x hx => Layouts.admits_update d.ne_some_size hx
  have hend : ∀ x : Nat × Layout, x.1 = c.size → x.2.Widens e.layout →
      Layouts.Admits (Function.update H c.size (some e.layout)) x := by
    rintro ⟨o, Γ⟩ rfl hw
    exact Layouts.admits_update_self hw
  have hleads : ∀ x, H.Leads c e x →
      Layouts.Leads (Function.update H c.size (some e.layout)) c' e' x := by
    rintro x (hx | ⟨h1, h2, -⟩)
    · exact .inl (hadmits x hx)
    · exact .inl (hend x h1 h2)
  refine ⟨?_, ?_, ?_, ?_, ?_, ?_, ?_, ?_⟩
  · intro o Γ hΓ
    by_cases ho : o = c.size
    · omega
    · rw [Function.update_of_ne ho] at hΓ
      have := d.inside o Γ hΓ
      omega
  · refine .inr ?_
    by_cases h0 : 0 = c.size
    · rw [h0, Function.update_self]
      rfl
    · rw [Function.update_of_ne h0]
      exact d.start.resolve_left (Ne.symm h0)
  · intro o Γ hΓ
    by_cases ho : o = c.size
    · subst ho
      rw [Function.update_self] at hΓ
      cases hΓ
      refine ⟨op, operands, ⟨Chunk.holds_of_append hcode, ?_, .inl hsize.symm⟩, hnew⟩
      intro j hj _
      rw [Function.update_of_ne (by omega)]
      cases hcase : H (c.size + j) with
      | none => rfl
      | some Δ =>
        have := d.inside _ _ hcase
        omega
    · rw [Function.update_of_ne ho] at hΓ
      obtain ⟨op₀, operands₀, hst, hor⟩ := d.step o Γ hΓ
      have hbound : o + operands₀.length < c.size :=
        hst.holds.lt_size (i := operands₀.length) (by simp)
      refine ⟨op₀, operands₀, ⟨hst.holds.append hcode, ?_, ?_⟩, ?_⟩
      · intro j hj hle
        rw [Function.update_of_ne (by omega)]
        exact hst.apart j hj hle
      · refine .inr ?_
        rcases hst.tight with htight | htight
        · rw [htight, Function.update_self]
          rfl
        · obtain ⟨Δ, hΔ⟩ := Option.isSome_iff_exists.mp htight
          rw [hold _ _ hΔ]
          rfl
      · rcases hor with ⟨hclosed, hne⟩ | ⟨hpend, hmem⟩
        · refine .inl ⟨hclosed.mono hprov hleads, fun x hx => ?_⟩
          rcases hpending x hx with hx | rfl
          · exact hne x hx
          · exact fun heq => ho (Nat.succ.inj heq).symm
        · exact .inr ⟨hpend.mono hleads, hkept _ hmem⟩
  · intro x hx
    rcases hpending x hx with hx | rfl
    · obtain ⟨o, ho, hH⟩ := d.opened x hx
      exact ⟨o, ho, hold _ _ hH⟩
    · exact ⟨c.size, rfl, Function.update_self ..⟩
  · intro x hx
    rcases d.labels x hx with h | ⟨h1, h2⟩
    · exact .inl (hadmits x h)
    · exact .inl (hend x h1 h2)
  · intro m hm
    rw [hmarks] at hm
    refine .inr ?_
    rcases d.marks m hm with ⟨hoff, hlen⟩ | ⟨Γ, hΓ, hlen⟩
    · exact ⟨e.layout, by rw [hoff, Function.update_self], hlen⟩
    · exact ⟨Γ, hold _ _ hΓ, hlen⟩
  · intro o Γ i b hΓ hi
    rw [hmarks]
    by_cases ho : o = c.size
    · subst ho
      rw [Function.update_self] at hΓ
      cases hΓ
      exact hdecl i b hi
    · rw [Function.update_of_ne ho] at hΓ
      exact d.declared o Γ i b hΓ hi
  · intro hs
    obtain ⟨rfl, rfl⟩ := hsealed hs
    exact ⟨c.size, e.layout, Function.update_self .., hsize.symm, Chunk.holds_of_append hcode⟩

/-- An instruction is written that goes on behind itself or to a label. -/
theorem emit (d : Draft c H e labels pending) {op : Opcode} {operands : List UInt8}
    {after : List (Nat × Layout)}
    (hcode : c'.chunk.code = c.chunk.code ++ (op.toByte :: operands).toArray)
    (hprov : c'.Provides c) (hmarks : c'.checkpoints = c.checkpoints)
    (hdecl : ∀ i b, fromOldest? e.layout i = some (.variable b) →
      0 < i ∧ i < localsAt c.checkpoints c.size)
    (heff : Effect c'.chunk.constants c'.captureCount c'.size op operands e.layout after)
    (hafter : ∀ x ∈ after, (x = (c'.size, e'.layout) ∧ ¬ e'.isSealed) ∨ x ∈ labels)
    (hsealed : e'.isSealed → op = .return ∧ operands = []) :
    Draft c' (Function.update H c.size (some e.layout)) e' labels pending := by
  have hsize : c'.size = c.size + 1 + operands.length := by
    simp [Code.size, hcode]
    omega
  refine d.extend hcode hprov hmarks hdecl (fun x hx => .inl hx) (fun x hx => hx)
    (.inl ⟨⟨after, hsize ▸ heff, fun x hx => ?_⟩, fun x hx heq => ?_⟩) hsealed
  · rcases hafter x hx with ⟨rfl, hs⟩ | hlabel
    · exact .inr ⟨rfl, .refl _, hs⟩
    · rcases d.labels x hlabel with h | ⟨h1, h2⟩
      · exact .inl (Layouts.admits_update d.ne_some_size h)
      · obtain ⟨o, Γ⟩ := x
        subst h1
        exact .inl (Layouts.admits_update_self h2)
  · have := d.pending_le hx
    omega

/-- A jump is written whose distance is not known yet.  After an unconditional
one the end of the code is out of reach, so that any layout may go there. -/
theorem openJump (d : Draft c H e labels pending) {op : Opcode} {byte : UInt8}
    (hcode : c'.chunk.code = c.chunk.code ++ [op.toByte, byte].toArray)
    (hprov : c'.Provides c) (hmarks : c'.checkpoints = c.checkpoints)
    (hdecl : ∀ i b, fromOldest? e.layout i = some (.variable b) →
      0 < i ∧ i < localsAt c.checkpoints c.size)
    (hop : op = .jump ∨ (op = .jumpIfFalse ∧ (∃ Δ, e.layout = .temporary :: Δ) ∧
      e'.layout = e.layout))
    (hopen : ¬ e'.isSealed) :
    Draft c' (Function.update H c.size (some e.layout)) e' labels
      ((c.size + 1, e.layout) :: pending) := by
  have hsize : c'.size = c.size + 2 := by simp [Code.size, hcode]
  refine d.extend hcode hprov hmarks hdecl ?_ (fun x hx => List.mem_cons_of_mem _ hx)
    (.inr ⟨⟨rfl, ?_⟩, List.mem_cons_self⟩) (fun hs => absurd hs hopen)
  · intro x hx
    exact (List.mem_cons.mp hx).symm
  · rcases hop with hop | ⟨hop, hΔ, hlayout⟩
    · exact .inl hop
    · refine .inr ⟨hop, hΔ, .inr ⟨hsize.symm, ?_, hopen⟩⟩
      rw [hlayout]
      exact .refl _

/-! ### Landing jumps -/

/-- The bytes of an instruction do not change when the operand of another one is
filled in. -/
theorem holds_setIfInBounds {o p : Nat} {Γ Δ : Layout} {op op' : Opcode}
    {operands operands' : List UInt8} (byte : UInt8) (hst : Stands c H o op operands)
    (ho : H o = some Γ) (hst' : Stands c H p op' operands') (hp : H p = some Δ)
    (hlen : operands'.length = 1) (hne : o ≠ p) :
    Chunk.Holds { c.chunk with code := c.chunk.code.setIfInBounds (p + 1) byte } o
      (op.toByte :: operands) := by
  intro i b hb
  have hi : i < operands.length + 1 := by
    simpa using (List.getElem?_eq_some_iff.mp hb).1
  have hoff : p + 1 ≠ o + i := by
    intro heq
    rcases Nat.lt_or_gt_of_ne hne with hlt | hgt
    · have hnone := hst.apart (p - o) (by omega) (by omega)
      rw [show o + (p - o) = p by omega, hp] at hnone
      cases hnone
    · have hnone := hst'.apart (o - p) (by omega) (by omega)
      rw [show p + (o - p) = o by omega, ho] at hnone
      cases hnone
  simp only [Array.getElem?_setIfInBounds_ne hoff]
  exact hst.holds i b hb

/-- An open jump is complete once its operand is the distance to the end of the
code. -/
theorem Stands.landJump {o : Nat} {op : Opcode} {operands : List UInt8} {byte : UInt8}
    (hst : Stands c H o op operands) (hlen : operands.length = 1) (hsize : c'.size = c.size)
    (hcode : c'.chunk = { c.chunk with code := c.chunk.code.setIfInBounds (o + 1) byte }) :
    Stands c' H o op [byte] := by
  have hlt : o + 1 < c.chunk.code.size := hst.holds.lt_size (i := 1) (by simp [hlen])
  refine ⟨?_, by simpa [hlen] using hst.apart, by simpa [hlen, hsize] using hst.tight⟩
  intro i b hb
  rw [hcode]
  match i, hb with
  | 0, hb =>
    simp only [Array.getElem?_setIfInBounds_ne (show o + 1 ≠ o + 0 by omega)]
    exact hst.holds 0 b (by simpa using hb)
  | 1, hb =>
    simp only [Array.getElem?_setIfInBounds_self_of_lt hlt]
    simpa using hb

/-- The open jump with its operand at `p` is landed at the end of the code. -/
theorem landJump (d : Draft c H e labels pending) {p : Nat} {Δ : Layout} {byte : UInt8}
    (hmem : (p, Δ) ∈ pending) (hbyte : byte.toNat = c.size - p - 1)
    (hcode : c'.chunk = { c.chunk with code := c.chunk.code.setIfInBounds p byte })
    (hcount : c'.captureCount = c.captureCount) (hmarks : c'.checkpoints = c.checkpoints)
    (hlayout : e'.layout = e.layout) (hsealed : ¬ e'.isSealed)
    (hp : ∀ x ∈ pending, x.1 = p → x.2.Widens e.layout)
    (hpending : ∀ x, x ∈ pending' ↔ x ∈ pending ∧ x.1 ≠ p) :
    Draft c' H e' labels pending' := by
  have hsize : c'.size = c.size := by simp [Code.size, hcode]
  have hprov : c'.Provides c :=
    ⟨fun k v hk => by rw [hcode]; exact hk, Nat.le_of_eq hcount.symm⟩
  have hleads : ∀ x, H.Leads c e x → H.Leads c' e' x := by
    rintro x (hx | ⟨h1, h2, -⟩)
    · exact .inl hx
    · exact .inr ⟨hsize ▸ h1, hlayout ▸ h2, hsealed⟩
  obtain ⟨q, rfl, hq⟩ := d.opened _ hmem
  obtain ⟨opq, operandsq, hstq, horq⟩ := d.step q _ hq
  have hpendq : Pending c H e q opq operandsq Δ := by
    rcases horq with ⟨-, hne⟩ | ⟨hpend, -⟩
    · exact absurd rfl (hne _ hmem)
    · exact hpend
  have hlt : q + 1 < c.size := hstq.holds.lt_size (i := 1) (by simp [hpendq.1])
  refine ⟨?_, hsize ▸ d.start, ?_, ?_, ?_, ?_, ?_, fun hs => absurd hs hsealed⟩
  · rw [hsize]
    exact d.inside
  · intro o Γ hΓ
    by_cases ho : o = q
    · -- the jump itself
      subst ho
      rw [hq] at hΓ
      cases hΓ
      refine ⟨opq, [byte], Stands.landJump hstq hpendq.1 hsize hcode, .inl ⟨?_, ?_⟩⟩
      · have hwidens : Δ.Widens e'.layout := by
          rw [hlayout]
          exact hp (o + 1, Δ) hmem rfl
        have hend : H.Leads c' e' (o + 1 + 1 + byte.toNat, Δ) :=
          .inr ⟨by rw [hsize, hbyte]; omega, hwidens, hsealed⟩
        rcases hpendq.2 with rfl | ⟨rfl, ⟨Θ, rfl⟩, hlead⟩
        · exact ⟨_, .jump, by simpa using hend⟩
        · refine ⟨_, .jumpIfFalse, fun x hx => ?_⟩
          rcases List.mem_pair.mp hx with rfl | rfl
          · exact hleads _ hlead
          · exact hend
      · exact fun x hx => ((hpending x).mp hx).2
    · obtain ⟨op, operands, hst, hor⟩ := d.step o Γ hΓ
      refine ⟨op, operands, ⟨?_, hst.apart, hsize ▸ hst.tight⟩, ?_⟩
      · rw [hcode]
        exact holds_setIfInBounds byte hst hΓ hstq hq hpendq.1 ho
      · rcases hor with ⟨hclosed, hne⟩ | ⟨hpend, hmem'⟩
        · exact .inl ⟨hclosed.mono hprov hleads, fun x hx => hne x ((hpending x).mp hx).1⟩
        · refine .inr ⟨hpend.mono hleads, (hpending _).mpr ⟨hmem', ?_⟩⟩
          simpa using ho
  · intro x hx
    exact d.opened x ((hpending x).mp hx).1
  · rw [hsize, hlayout]
    exact d.labels
  · rw [hmarks, hsize, hlayout]
    exact d.marks
  · rw [hmarks]
    exact d.declared

end Draft

end ScriptEngine
