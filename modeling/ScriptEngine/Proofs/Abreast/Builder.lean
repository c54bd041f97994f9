import ScriptEngine.Compile.Scope
import ScriptEngine.Proofs.Matching
set_option autoImplicit false

/-!
# Two compilations abreast: what they write

Two compilations may write the same function, one of them behind code that it has written
before.  A `Ledger` lists what that side has in advance.  Behind it both sides write the
same instructions, except that an instruction which names a constant names it by its place
in the pool (`Item.shift`).

While a form is compiled, the compiler holds numbers that mean places in the code or in
the pool.  The ledger keeps the pairs of them (`Pin`).  A jump can be landed on both sides
because its operand is pinned: it belongs to an instruction that names no constant
(`RelatesChunks.land`).
-/

namespace ScriptEngine

/-- The opcode is followed by one byte, whatever that byte is. -/
structure Opcode.TakesByte (op : Opcode) : Prop where
  operandBytes : op.operandBytes = 1
  notClosure : op ≠ .closure

instance (op : Opcode) : Decidable op.TakesByte :=
  decidable_of_iff (op.operandBytes = 1 ∧ op ≠ .closure)
    ⟨fun h => ⟨h.1, h.2⟩, fun h => ⟨h.1, h.2⟩⟩

namespace Compile

open State (Place)

/-! ## Instructions as they are written -/

/-- An instruction with its operand bytes. -/
structure Item where
  op : Opcode
  operands : List UInt8

namespace Item

def bytes (i : Item) : List UInt8 := i.op.toByte :: i.operands

/-- The instruction for a pool with `k` more constants in front. -/
def shift (k : Nat) (i : Item) : Item :=
  if i.op.namesConstant then { i with operands := i.operands.modifyHead (· + k.toUInt8) }
  else i

theorem length_bytes_shift (k : Nat) (i : Item) : (i.shift k).bytes.length = i.bytes.length := by
  unfold shift
  split
  · simp [bytes]
  · rfl

theorem shift_of_not_namesConstant {i : Item} (h : i.op.namesConstant = false) (k : Nat) :
    i.shift k = i :=
  if_neg (by simp [h])

theorem shift_zero (i : Item) : i.shift 0 = i := by
  obtain ⟨op, operands⟩ := i
  unfold shift
  split
  · cases operands <;> simp
  · rfl

/-- The instruction has as many operands as its opcode asks for.  For a closure that is a
matter of the function it is made of. -/
def Fits (pool : Array Value) (i : Item) : Prop :=
  if i.op = .closure then
    ∃ k pairs f, i.operands = k :: pairs ∧ pool[k.toNat]? = some (.function f) ∧
      pairs.length = 2 * f.captureCount
  else i.operands.length = i.op.operandBytes

theorem fits_of_ne {pool : Array Value} {i : Item} (hne : i.op ≠ .closure)
    (hlen : i.operands.length = i.op.operandBytes) : i.Fits pool := by
  unfold Fits
  rwa [if_neg hne]

/-- More constants take nothing away. -/
theorem Fits.push {pool : Array Value} {i : Item} (h : i.Fits pool) (v : Value) :
    i.Fits (pool.push v) := by
  unfold Fits at h ⊢
  split
  · next hop =>
    rw [if_pos hop] at h
    obtain ⟨k, pairs, f, hoperands, hk, hlen⟩ := h
    refine ⟨k, pairs, f, hoperands, ?_, hlen⟩
    have hlt := (Array.getElem?_eq_some_iff.mp hk).1
    rw [Array.getElem?_push, if_neg (Nat.ne_of_lt hlt), hk]
  · next hop => rwa [if_neg hop] at h

/-- Another operand in the place of one that is not a constant. -/
theorem Fits.operand {pool : Array Value} {op : Opcode} {byte : UInt8}
    (hop : op.namesConstant = false) (h : Fits pool ⟨op, [byte]⟩) (byte' : UInt8) :
    Fits pool ⟨op, [byte']⟩ := by
  have hne : op ≠ .closure := by
    rintro rfl
    cases hop
  unfold Fits at h
  rw [if_neg hne] at h
  exact fits_of_ne hne h

end Item

/-- The bytes of instructions that stand one behind the other. -/
def codeOf (is : List Item) : List UInt8 := is.flatMap Item.bytes

theorem codeOf_append (is js : List Item) : codeOf (is ++ js) = codeOf is ++ codeOf js :=
  List.flatMap_append

/-- How much code there is depends on the sizes of the instructions only. -/
theorem length_codeOf_congr {is js : List Item}
    (h : List.Forall₂ (fun i j : Item => i.bytes.length = j.bytes.length) is js) :
    (codeOf is).length = (codeOf js).length := by
  induction h with
  | nil => rfl
  | @cons i j is js hhead _ ih =>
    show (i.bytes ++ codeOf is).length = (j.bytes ++ codeOf js).length
    rw [List.length_append, List.length_append, hhead, ih]

theorem length_codeOf_shift (k : Nat) (is : List Item) :
    (codeOf (is.map (Item.shift k))).length = (codeOf is).length :=
  length_codeOf_congr (List.forall₂_map_left_iff.mpr
    (List.forall₂_same.mpr fun i _ => i.length_bytes_shift k))

/-- The operand at `p` is the only one of an instruction that names no constant. -/
def IsOpen (is : List Item) (p : Nat) : Prop :=
  ∃ n op byte, is[n]? = some ⟨op, [byte]⟩ ∧ op.namesConstant = false ∧
    p = (codeOf (is.take n)).length + 1

theorem IsOpen.append {is : List Item} {p : Nat} (h : IsOpen is p) (js : List Item) :
    IsOpen (is ++ js) p := by
  obtain ⟨n, op, byte, hitem, hop, rfl⟩ := h
  have hn : n < is.length := (List.getElem?_eq_some_iff.mp hitem).1
  refine ⟨n, op, byte, ?_, hop, ?_⟩
  · rw [List.getElem?_append_left hn, hitem]
  · rw [List.take_append_of_le_length (Nat.le_of_lt hn)]

theorem isOpen_append_self {op : Opcode} (hop : op.namesConstant = false) (is : List Item)
    (byte : UInt8) : IsOpen (is ++ [⟨op, [byte]⟩]) ((codeOf is).length + 1) :=
  ⟨is.length, op, byte, by simp, hop, by simp⟩

/-- Another operand in the place of one that is open. -/
theorem codeOf_set {is : List Item} {n : Nat} {op : Opcode} {byte : UInt8}
    (h : is[n]? = some ⟨op, [byte]⟩) (byte' : UInt8) :
    codeOf (is.set n ⟨op, [byte']⟩) =
      (codeOf is).set ((codeOf (is.take n)).length + 1) byte' := by
  obtain ⟨hn, hitem⟩ := List.getElem?_eq_some_iff.mp h
  have hsplit : is = is.take n ++ ⟨op, [byte]⟩ :: is.drop (n + 1) := by
    rw [← hitem, List.getElem_cons_drop, List.take_append_drop]
  have hset : is.set n ⟨op, [byte']⟩ =
      is.take n ++ ⟨op, [byte']⟩ :: is.drop (n + 1) := by
    rw [List.set_eq_take_append_cons_drop, if_pos hn]
  have hbefore : codeOf is = codeOf (is.take n) ++ op.toByte :: byte ::
      codeOf (is.drop (n + 1)) := by
    conv_lhs => rw [hsplit]
    exact codeOf_append ..
  rw [hset, codeOf_append, hbefore, List.set_append_right _ _ (Nat.le_add_right _ _)]
  simp [codeOf, Item.bytes]

theorem IsOpen.set {is : List Item} {n q : Nat} {op : Opcode} {byte : UInt8}
    (h : is[n]? = some ⟨op, [byte]⟩) (byte' : UInt8) (hq : IsOpen is q) :
    IsOpen (is.set n ⟨op, [byte']⟩) q := by
  obtain ⟨m, op', byte'', hitem, hop, rfl⟩ := hq
  have hsizes : ∀ m : Nat, (codeOf ((is.set n ⟨op, [byte']⟩).take m)).length =
      (codeOf (is.take m)).length := by
    intro m
    refine length_codeOf_congr (List.forall₂_take m (forall₂_iff_getElem?.mpr fun i => ?_))
    rw [List.getElem?_set]
    split
    · next hi =>
      subst hi
      split
      · rw [h]
        exact .some rfl
      · next hn => exact absurd (List.getElem?_eq_some_iff.mp h).1 hn
    · cases is[i]? with
      | some j => exact .some rfl
      | none => exact .none
  by_cases hm : n = m
  · subst hm
    obtain ⟨rfl, -⟩ := Item.mk.inj (Option.some.inj (h.symm.trans hitem))
    refine ⟨n, op, byte', ?_, hop, by rw [hsizes]⟩
    rw [List.getElem?_set_self (List.getElem?_eq_some_iff.mp h).1]
  · refine ⟨m, op', byte'', ?_, hop, by rw [hsizes]⟩
    rw [List.getElem?_set_ne hm, hitem]

/-! ## Ledgers -/

/-- The place for a pool with `k` more constants in front. -/
def State.Place.shift (k : Nat) : Place → Place
  | .global c => .global (c + k)
  | place => place

/-- A number that the compiler holds, and the number for it on the other side. -/
inductive Pin where
  /-- Where the operand of a jump stands that is not landed yet. -/
  | jump (operand operand' : Nat)
  | offset (o o' : Nat)
  | place (p p' : Place)
  | count (n n' : Nat)

/-- What the second side has written before, how many scopes are open, and the numbers that
both sides hold. -/
structure Ledger where
  code : List UInt8 := []
  pool : List Value := []
  depth : Nat := 0
  pins : List Pin := []

/-- The numbers mean the same. -/
def Pin.Holds (l : Ledger) (is : List Item) : Pin → Prop
  | .jump p p' => IsOpen is p ∧ p' = p + l.code.length
  | .offset o o' => o' = o + l.code.length
  | .place p p' => p' = p.shift l.pool.length
  | .count n n' => n' = n

namespace Ledger

/-- The ledger with one more pin. -/
def pin (l : Ledger) (p : Pin) : Ledger := { l with pins := p :: l.pins }

/-- The ledger with the constant of a name that was declared, if it is global. -/
def bind (l : Ledger) (c c' : Nat) : Ledger :=
  if l.depth = 0 then l.pin (.place (.global c) (.global c')) else l

theorem depth_bind (l : Ledger) (c c' : Nat) : (l.bind c c').depth = l.depth := by
  unfold bind
  split <;> rfl

/-- Behind what the second side has in advance, the same code is written. -/
structure RelatesChunks (l : Ledger) (M : Matching) (c c' : Chunk Value) : Prop where
  code : ∃ is : List Item, c.code.toList = codeOf is ∧
    c'.code.toList = l.code ++ codeOf (is.map (Item.shift l.pool.length)) ∧
    (∀ p ∈ l.pins, p.Holds l is) ∧
    (c.constants.size ≤ byteRange → ∀ i ∈ is, i.Fits c.constants)
  lines : ∃ older newer, c'.lines.toList = older ++ newer ∧ older.length = l.code.length ∧
    List.Forall₂ M.lines c.lines.toList newer
  constants : ∃ newer, c'.constants.toList = l.pool ++ newer ∧
    List.Forall₂ (Value.Matches M) c.constants.toList newer

/-- The same function is written, and the same names are in scope. -/
structure Relates (l : Ledger) (M : Matching) (b b' : Builder) : Prop where
  name : b'.name = b.name
  arity : b'.arity = b.arity
  locals : b'.locals = b.locals
  depth : b.depth = l.depth
  depth' : b'.depth = l.depth
  captures : b'.captures = b.captures
  /-- All that is ever asked of the last opcode. -/
  returns : b'.lastOp = some .return ↔ b.lastOp = some .return
  chunk : l.RelatesChunks M b.chunk b'.chunk

/-- The functions under construction correspond, each by its own ledger. -/
inductive RelatesAll (M : Matching) : List Ledger → List Builder → List Builder → Prop where
  | nil : RelatesAll M [] [] []
  | cons {l : Ledger} {ls : List Ledger} {b b' : Builder} {bs bs' : List Builder}
      (head : l.Relates M b b') (tail : RelatesAll M ls bs bs') :
      RelatesAll M (l :: ls) (b :: bs) (b' :: bs')

section Chunks

variable {l : Ledger} {M N : Matching} {c c' d d' : Chunk Value}

/-- Nothing is written, and nothing was written before. -/
theorem relatesChunks_empty (M : Matching) : RelatesChunks {} M .empty .empty where
  code := ⟨[], rfl, rfl, List.forall_mem_nil _, fun _ => List.forall_mem_nil _⟩
  lines := ⟨[], [], rfl, rfl, .nil⟩
  constants := ⟨[], rfl, .nil⟩

namespace RelatesChunks

theorem size (h : l.RelatesChunks M c c') : c'.code.size = c.code.size + l.code.length := by
  obtain ⟨is, hcode, hcode', -⟩ := h.code
  rw [← Array.length_toList, ← Array.length_toList, hcode, hcode', List.length_append,
    length_codeOf_shift, Nat.add_comm]

theorem sizeConstants (h : l.RelatesChunks M c c') :
    c'.constants.size = c.constants.size + l.pool.length := by
  obtain ⟨newer, hnewer, hmatch⟩ := h.constants
  rw [← Array.length_toList, ← Array.length_toList, hnewer, List.length_append,
    hmatch.length_eq, Nat.add_comm]

theorem holds (h : l.RelatesChunks M c c') {p : Pin} (hp : p ∈ l.pins) :
    ∃ is : List Item, p.Holds l is := by
  obtain ⟨is, -, -, hpins, -⟩ := h.code
  exact ⟨is, hpins p hp⟩

theorem mono (h : l.RelatesChunks M c c') (hMN : M.Grows N) : l.RelatesChunks N c c' where
  code := h.code
  lines := by
    obtain ⟨older, newer, heq, hlength, hlines⟩ := h.lines
    exact ⟨older, newer, heq, hlength, hlines.imp fun _ _ => hMN.lines⟩
  constants := by
    obtain ⟨newer, heq, hmatch⟩ := h.constants
    exact ⟨newer, heq, hmatch.imp fun _ _ hv => hv.mono hMN⟩

/-- A pin may be added for numbers that mean the same. -/
theorem pin {p : Pin} (h : l.RelatesChunks M c c')
    (hp : ∀ is : List Item, c.code.toList = codeOf is → p.Holds l is) :
    (l.pin p).RelatesChunks M c c' where
  code := by
    obtain ⟨is, hcode, hcode', hpins, hfits⟩ := h.code
    exact ⟨is, hcode, hcode', List.forall_mem_cons.mpr ⟨hp is hcode, hpins⟩, hfits⟩
  lines := h.lines
  constants := h.constants

/-- Pins may be given up. -/
theorem repin {pins : List Pin} (h : l.RelatesChunks M c c') (hpins : pins ⊆ l.pins) :
    { l with pins := pins }.RelatesChunks M c c' where
  code := by
    obtain ⟨is, hcode, hcode', hholds, hfits⟩ := h.code
    exact ⟨is, hcode, hcode', fun p hp => hholds p (hpins hp), hfits⟩
  lines := h.lines
  constants := h.constants

/-- The same instruction is written on both sides, and numbers that come with it may be
pinned. -/
theorem write (h : l.RelatesChunks M c c') (i : Item) (pins : List Pin)
    (hpins : ∀ p ∈ pins, ∀ is : List Item, c.code.toList = codeOf is → p.Holds l (is ++ [i]))
    (hfits : c.constants.size ≤ byteRange → i.Fits c.constants) {lines lines' : List Nat}
    (hcode : d.code.toList = c.code.toList ++ i.bytes)
    (hcode' : d'.code.toList = c'.code.toList ++ (i.shift l.pool.length).bytes)
    (hlines : d.lines.toList = c.lines.toList ++ lines)
    (hlines' : d'.lines.toList = c'.lines.toList ++ lines')
    (hmatch : List.Forall₂ M.lines lines lines')
    (hconstants : d.constants = c.constants) (hconstants' : d'.constants = c'.constants) :
    { l with pins := pins ++ l.pins }.RelatesChunks M d d' where
  code := by
    obtain ⟨is, his, his', hold, hfit⟩ := h.code
    refine ⟨is ++ [i], ?_, ?_, fun p hp => ?_, fun hroom j hj => ?_⟩
    · rw [hcode, his, codeOf_append]
      simp [codeOf]
    · rw [hcode', his', List.map_append, codeOf_append]
      simp [codeOf]
    · rcases List.mem_append.mp hp with hnew | hpinned
      · exact hpins p hnew is his
      · have hbefore := hold p hpinned
        cases p with
        | jump => exact ⟨hbefore.1.append [i], hbefore.2⟩
        | _ => exact hbefore
    · rw [hconstants] at hroom ⊢
      rcases List.mem_append.mp hj with hold | hnew
      · exact hfit hroom j hold
      · rw [List.mem_singleton.mp hnew]
        exact hfits hroom
  lines := by
    obtain ⟨older, newer, heq, hlength, hmatched⟩ := h.lines
    refine ⟨older, newer ++ lines', ?_, hlength, ?_⟩
    · rw [hlines', heq, List.append_assoc]
    · rw [hlines]
      exact List.rel_append hmatched hmatch
  constants := by
    rw [hconstants, hconstants']
    exact h.constants

theorem appendOp (h : l.RelatesChunks M c c') {op : Opcode} (hop : op.operandBytes = 0)
    {line line' : Nat} (hline : M.lines line line') :
    l.RelatesChunks M (c.appendOp op line) (c'.appendOp op line') := by
  have hbytes : (Item.shift l.pool.length ⟨op, []⟩).bytes = [op.toByte] := by
    unfold Item.shift
    split <;> rfl
  have hne : op ≠ .closure := by
    rintro rfl
    cases hop
  refine h.write ⟨op, []⟩ [] (List.forall_mem_nil _) (fun _ => Item.fits_of_ne hne hop.symm)
    ?_ ?_ ?_ ?_ (.cons hline .nil) rfl rfl
  · exact Array.toList_push
  · rw [hbytes]
    exact Array.toList_push
  · exact Array.toList_push
  · exact Array.toList_push

theorem appendWith (h : l.RelatesChunks M c c') {op : Opcode} (hop : op.TakesByte)
    {operand operand' : UInt8} (hoperand : operand' =
      if op.namesConstant then operand + l.pool.length.toUInt8 else operand)
    {line line' : Nat} (hline : M.lines line line') (pins : List Pin)
    (hpins : ∀ p ∈ pins, ∀ is : List Item, c.code.toList = codeOf is →
      p.Holds l (is ++ [⟨op, [operand]⟩])) :
    { l with pins := pins ++ l.pins }.RelatesChunks M (c.appendWith op operand line)
      (c'.appendWith op operand' line') := by
  have hbytes : (Item.shift l.pool.length ⟨op, [operand]⟩).bytes = [op.toByte, operand'] := by
    rw [hoperand]
    unfold Item.shift
    split <;> rfl
  refine h.write ⟨op, [operand]⟩ pins hpins
    (fun _ => Item.fits_of_ne hop.notClosure hop.operandBytes.symm) ?_ ?_ ?_ ?_
    (.cons hline (.cons hline .nil)) rfl rfl
  · simp [Chunk.appendWith, Chunk.appendOp, Chunk.append, Item.bytes]
  · rw [hbytes]
    simp [Chunk.appendWith, Chunk.appendOp, Chunk.append]
  · simp [Chunk.appendWith, Chunk.appendOp, Chunk.append]
  · simp [Chunk.appendWith, Chunk.appendOp, Chunk.append]

/-- An instruction is written with further bytes behind its operand. -/
theorem appendClosure (h : l.RelatesChunks M c c') {operand operand' : UInt8}
    (hoperand : operand' = operand + l.pool.length.toUInt8) {bytes : List UInt8}
    (hbytes : c.constants.size ≤ byteRange → ∃ f, c.constants[operand.toNat]? =
      some (.function f) ∧ bytes.length = 2 * f.captureCount)
    {line line' : Nat} (hline : M.lines line line') :
    l.RelatesChunks M
      { c with
        code := (c.appendWith .closure operand line).code ++ bytes.toArray
        lines := (c.appendWith .closure operand line).lines ++
          (List.replicate bytes.length line).toArray }
      { c' with
        code := (c'.appendWith .closure operand' line').code ++ bytes.toArray
        lines := (c'.appendWith .closure operand' line').lines ++
          (List.replicate bytes.length line').toArray } := by
  have hlines : ∀ k, List.Forall₂ M.lines (line :: line :: List.replicate k line)
      (line' :: line' :: List.replicate k line') := by
    intro k
    refine .cons hline (.cons hline ?_)
    induction k with
    | zero => exact .nil
    | succ k ih => exact .cons hline ih
  have hfits : c.constants.size ≤ byteRange →
      Item.Fits c.constants ⟨.closure, operand :: bytes⟩ := fun hroom => by
    obtain ⟨f, hf, hlen⟩ := hbytes hroom
    exact ⟨operand, bytes, f, rfl, hf, hlen⟩
  refine h.write ⟨.closure, operand :: bytes⟩ [] (List.forall_mem_nil _) hfits ?_ ?_ ?_ ?_
    (hlines bytes.length) rfl rfl
  · simp [Chunk.appendWith, Chunk.appendOp, Chunk.append, Item.bytes]
  · rw [hoperand]
    simp [Chunk.appendWith, Chunk.appendOp, Chunk.append, Item.bytes, Item.shift,
      Opcode.namesConstant]
  · simp [Chunk.appendWith, Chunk.appendOp, Chunk.append]
  · simp [Chunk.appendWith, Chunk.appendOp, Chunk.append]

/-- A jump is written, and its operand is pinned. -/
theorem openJump (h : l.RelatesChunks M c c') {op : Opcode} (hop : op.namesConstant = false)
    (hbyte : op.TakesByte) {line line' : Nat} (hline : M.lines line line') :
    (l.pin (.jump (c.openJump op line).1 (c'.openJump op line').1)).RelatesChunks M
      (c.openJump op line).2 (c'.openJump op line').2 := by
  refine h.appendWith hbyte (by rw [hop]; rfl) hline [.jump _ _]
    (List.forall_mem_singleton.mpr fun is his => ⟨?_, ?_⟩)
  · have hsize : c.code.size = (codeOf is).length := by
      rw [← his, Array.length_toList]
    rw [Chunk.openJump, hsize]
    exact isOpen_append_self hop is 0xff
  · show c'.code.size + 1 = c.code.size + 1 + l.code.length
    rw [h.size]
    omega

/-- The operand of a jump that is pinned is filled in on both sides. -/
theorem land {p p' : Nat} (h : l.RelatesChunks M c c') (hp : .jump p p' ∈ l.pins)
    (byte : UInt8) :
    l.RelatesChunks M { c with code := c.code.setIfInBounds p byte }
      { c' with code := c'.code.setIfInBounds p' byte } where
  code := by
    obtain ⟨is, his, his', hpins, hfits⟩ := h.code
    obtain ⟨⟨n, op, byte₀, hitem, hop, rfl⟩, rfl⟩ := hpins _ hp
    have hshift : (is.map (Item.shift l.pool.length))[n]? = some ⟨op, [byte₀]⟩ := by
      rw [List.getElem?_map, hitem]
      exact congrArg some (Item.shift_of_not_namesConstant hop _)
    refine ⟨is.set n ⟨op, [byte]⟩, ?_, ?_, fun q hq => ?_, fun hroom i hi => ?_⟩
    · rw [Array.toList_setIfInBounds, his, codeOf_set hitem]
    · rw [Array.toList_setIfInBounds, his', List.map_set,
        Item.shift_of_not_namesConstant hop, codeOf_set hshift, Nat.add_comm _ l.code.length,
        List.set_append_right _ _ (Nat.le_add_right _ _), Nat.add_sub_cancel_left,
        ← List.map_take, length_codeOf_shift]
    · have hold := hpins q hq
      cases q with
      | jump => exact ⟨hold.1.set hitem byte, hold.2⟩
      | _ => exact hold
    · rcases List.mem_or_eq_of_mem_set hi with hold | rfl
      · exact hfits hroom i hold
      · exact (hfits hroom _ (List.mem_of_getElem? hitem)).operand hop byte
  lines := h.lines
  constants := h.constants

/-- Constants that match are put into both pools. -/
theorem pushConstant {v v' : Value} (h : l.RelatesChunks M c c') (hv : v.Matches M v') :
    l.RelatesChunks M (c.pushConstant v).2 (c'.pushConstant v').2 where
  code := by
    obtain ⟨is, his, his', hpins, hfits⟩ := h.code
    refine ⟨is, his, his', hpins, fun hroom i hi => (hfits ?_ i hi).push v⟩
    have hsize : (c.pushConstant v).2.constants.size = c.constants.size + 1 := Array.size_push _
    omega
  lines := h.lines
  constants := by
    obtain ⟨newer, heq, hmatch⟩ := h.constants
    refine ⟨newer ++ [v'], ?_, ?_⟩
    · rw [Chunk.pushConstant, Array.toList_push, heq, List.append_assoc]
    · rw [Chunk.pushConstant, Array.toList_push]
      exact List.rel_append hmatch (.cons hv .nil)

end RelatesChunks

theorem Relates.mono {b b' : Builder} (h : l.Relates M b b') (hMN : M.Grows N) :
    l.Relates N b b' :=
  { h with chunk := h.chunk.mono hMN }

theorem RelatesAll.mono {ls : List Ledger} {bs bs' : List Builder} (h : RelatesAll M ls bs bs')
    (hMN : M.Grows N) : RelatesAll N ls bs bs' := by
  induction h with
  | nil => exact .nil
  | cons head _ ih => exact .cons (head.mono hMN) ih

end Chunks

end Ledger

end Compile

end ScriptEngine
