import ScriptEngine.Compile.Builder
import Mathlib.Data.List.Forall2
set_option autoImplicit false

/-!
# Layouts of frames

What a frame holds at an offset of its code is known when the code is written:
how many slots there are, which of them belong to declared variables and which
to temporary values (`Layout`).  An instruction takes a frame from one layout to
another (`Effect`), and code is sound if every instruction leads to offsets
whose layouts allow it.

Layouts, locals and calls are all listed newest first and numbered from the
oldest on; `fromOldest?` is the look-up by such a number.
-/

namespace ScriptEngine

/-! ## Numbering from the oldest -/

section Numbering

variable {α β : Type}

/-- The element with `i` others behind it. -/
def fromOldest? : List α → Nat → Option α
  | [], _ => none
  | a :: older, i => if i = older.length then some a else fromOldest? older i

theorem fromOldest_cons_self (a : α) (as : List α) :
    fromOldest? (a :: as) as.length = some a := by simp [fromOldest?]

theorem fromOldest_eq_none_of_le {as : List α} {i : Nat} (h : as.length ≤ i) :
    fromOldest? as i = none := by
  induction as with
  | nil => rfl
  | cons a as ih =>
    rw [List.length_cons] at h
    rw [fromOldest?, if_neg (by omega)]
    exact ih (by omega)

theorem lt_of_fromOldest {as : List α} {i : Nat} {a : α}
    (h : fromOldest? as i = some a) : i < as.length := by
  rcases Nat.lt_or_ge i as.length with hlt | hle
  · exact hlt
  · rw [fromOldest_eq_none_of_le hle] at h
    cases h

theorem exists_fromOldest {as : List α} {i : Nat} (h : i < as.length) :
    ∃ a, fromOldest? as i = some a := by
  induction as with
  | nil => exact absurd h (Nat.not_lt_zero i)
  | cons a as ih =>
    unfold fromOldest?
    split
    · exact ⟨a, rfl⟩
    · rw [List.length_cons] at h
      exact ih (by omega)

theorem mem_of_fromOldest {as : List α} {i : Nat} {a : α}
    (h : fromOldest? as i = some a) : a ∈ as := by
  induction as with
  | nil => cases h
  | cons b as ih =>
    unfold fromOldest? at h
    split at h
    · cases h
      exact List.mem_cons_self
    · exact List.mem_cons_of_mem b (ih h)

/-- Newer elements change no number. -/
theorem fromOldest_append {as bs : List α} {i : Nat} (h : i < bs.length) :
    fromOldest? (as ++ bs) i = fromOldest? bs i := by
  induction as with
  | nil => rfl
  | cons a as ih =>
    rw [List.cons_append, fromOldest?, if_neg (by rw [List.length_append]; omega), ih]

theorem fromOldest_cons_of_lt {a : α} {as : List α} {i : Nat} (h : i < as.length) :
    fromOldest? (a :: as) i = fromOldest? as i := by
  rw [fromOldest?, if_neg (Nat.ne_of_lt h)]

/-- Related lists have related elements at each number. -/
theorem fromOldest_forall₂ {R : α → β → Prop} {as : List α} {bs : List β}
    (h : List.Forall₂ R as bs) {i : Nat} {b : β} (hb : fromOldest? bs i = some b) :
    ∃ a, fromOldest? as i = some a ∧ R a b := by
  induction h with
  | nil => cases hb
  | @cons a b' as bs hab hrest ih =>
    unfold fromOldest? at hb ⊢
    rw [hrest.length_eq]
    split at hb
    · next hi =>
      cases hb
      exact ⟨a, by rw [if_pos hi], hab⟩
    · next hi =>
      rw [if_neg hi]
      exact ih hb

end Numbering

/-! ## Layouts -/

/-- What a slot is used for. -/
inductive SlotKind where
  | temporary
  /-- The slot of a declared variable, and whether a closure may have captured
  it. -/
  | variable (isCaptured : Bool)
  /-- Slot 0, which no instruction reads or gives up. -/
  | callee
  deriving DecidableEq, Repr, Inhabited

/-- The uses of a frame's slots, newest first. -/
abbrev Layout : Type := List SlotKind

namespace Layout

/-- A frame with the first layout may be taken for one with the second: a
temporary value becomes a variable when its declaration ends. -/
def Widens (Γ Δ : Layout) : Prop :=
  List.Forall₂ (fun κ κ' => κ = .temporary ∨ κ = κ') Γ Δ

theorem Widens.refl (Γ : Layout) : Γ.Widens Γ :=
  List.forall₂_same.mpr fun _ _ => .inr rfl

theorem Widens.trans {Γ Δ Θ : Layout} (h : Γ.Widens Δ) (k : Δ.Widens Θ) : Γ.Widens Θ := by
  induction h generalizing Θ with
  | nil => exact k
  | cons hκ _ ih =>
    cases k with
    | cons hκ' hrest =>
      refine .cons ?_ (ih hrest)
      rcases hκ with hκ | rfl
      · exact .inl hκ
      · exact hκ'

theorem Widens.length_eq {Γ Δ : Layout} (h : Γ.Widens Δ) : Γ.length = Δ.length :=
  List.Forall₂.length_eq h

theorem widens_variable (Γ : Layout) (κ : SlotKind) :
    Widens (.temporary :: Γ) (κ :: Γ) :=
  .cons (.inl rfl) (Widens.refl Γ)

/-- A variable stays one. -/
theorem Widens.variable {Γ Δ : Layout} (h : Γ.Widens Δ) {i : Nat} {b : Bool}
    (hi : fromOldest? Γ i = some (.variable b)) :
    fromOldest? Δ i = some (.variable b) := by
  have hflip : List.Forall₂ (fun κ' κ => κ = .temporary ∨ κ = κ') Δ Γ :=
    List.Forall₂.flip h
  obtain ⟨κ, hκ, hor⟩ := fromOldest_forall₂ hflip hi
  rcases hor with hor | hor
  · cases hor
  · rw [hκ, hor]

end Layout

/-! ## Effects of instructions -/

/-- A constant that stands for itself. -/
def Value.isLiteral : Value → Bool
  | .number _ | .string _ => true
  | _ => false

namespace Opcode

/-- The opcodes that push one fixed value. -/
def isLiteral : Opcode → Bool
  | .nil | .true | .false => Bool.true
  | _ => Bool.false

/-- The opcodes that put one value in the place of two. -/
def isBinary : Opcode → Bool
  | .equal | .greater | .less | .add | .subtract | .multiply | .divide => Bool.true
  | _ => Bool.false

/-- The opcodes that put one value in the place of one. -/
def isUnary : Opcode → Bool
  | .not | .negate => Bool.true
  | _ => Bool.false

end Opcode

/-- What a capture needs: a local that may be captured, or a cell of the function
around. -/
def Capture.Allowed (captureCount : Nat) (Γ : Layout) (c : Capture) : Prop :=
  if c.isLocal then fromOldest? Γ c.index = some (.variable true)
  else c.index < captureCount

open SlotKind in
/-- Where an instruction leads in a frame of some layout: the offsets it may go
on at, with the layouts it leaves.  `pool` holds the constants of the function,
which captures `captureCount` cells, and `next` is the offset behind the
instruction. -/
inductive Effect (pool : Array Value) (captureCount next : Nat) :
    Opcode → List UInt8 → Layout → List (Nat × Layout) → Prop where
  | literal {op : Opcode} {Γ : Layout} (hop : op.isLiteral = true) :
      Effect pool captureCount next op [] Γ [(next, temporary :: Γ)]
  | constant {k : UInt8} {v : Value} {Γ : Layout} (hk : pool[k.toNat]? = some v)
      (hv : v.isLiteral = true) :
      Effect pool captureCount next .constant [k] Γ [(next, temporary :: Γ)]
  /-- A captured variable must not be popped in this way. -/
  | pop {κ : SlotKind} {Γ : Layout} (hκ : κ ≠ .variable true) (hcallee : κ ≠ .callee) :
      Effect pool captureCount next .pop [] (κ :: Γ) [(next, Γ)]
  | closeUpvalue {b : Bool} {Γ : Layout} :
      Effect pool captureCount next .closeUpvalue [] (.variable b :: Γ) [(next, Γ)]
  | getLocal {k : UInt8} {b : Bool} {Γ : Layout} (hpos : 0 < k.toNat)
      (hk : fromOldest? Γ k.toNat = some (.variable b)) :
      Effect pool captureCount next .getLocal [k] Γ [(next, temporary :: Γ)]
  | setLocal {k : UInt8} {b : Bool} {Γ : Layout} (hpos : 0 < k.toNat)
      (hk : fromOldest? Γ k.toNat = some (.variable b)) :
      Effect pool captureCount next .setLocal [k] (temporary :: Γ)
        [(next, temporary :: Γ)]
  | getGlobal {k : UInt8} {name : String} {Γ : Layout}
      (hk : pool[k.toNat]? = some (.string name)) :
      Effect pool captureCount next .getGlobal [k] Γ [(next, temporary :: Γ)]
  | defineGlobal {k : UInt8} {name : String} {Γ : Layout}
      (hk : pool[k.toNat]? = some (.string name)) :
      Effect pool captureCount next .defineGlobal [k] (temporary :: Γ) [(next, Γ)]
  | setGlobal {k : UInt8} {name : String} {Γ : Layout}
      (hk : pool[k.toNat]? = some (.string name)) :
      Effect pool captureCount next .setGlobal [k] (temporary :: Γ)
        [(next, temporary :: Γ)]
  | getUpvalue {k : UInt8} {Γ : Layout} (hk : k.toNat < captureCount) :
      Effect pool captureCount next .getUpvalue [k] Γ [(next, temporary :: Γ)]
  | setUpvalue {k : UInt8} {Γ : Layout} (hk : k.toNat < captureCount) :
      Effect pool captureCount next .setUpvalue [k] (temporary :: Γ)
        [(next, temporary :: Γ)]
  | binary {op : Opcode} {Γ : Layout} (hop : op.isBinary = true) :
      Effect pool captureCount next op [] (temporary :: temporary :: Γ)
        [(next, temporary :: Γ)]
  | unary {op : Opcode} {Γ : Layout} (hop : op.isUnary = true) :
      Effect pool captureCount next op [] (temporary :: Γ) [(next, temporary :: Γ)]
  | jump {d : UInt8} {Γ : Layout} :
      Effect pool captureCount next .jump [d] Γ [(next + d.toNat, Γ)]
  | jumpIfFalse {d : UInt8} {Γ : Layout} :
      Effect pool captureCount next .jumpIfFalse [d] (temporary :: Γ)
        [(next, temporary :: Γ), (next + d.toNat, temporary :: Γ)]
  | loop {d : UInt8} {Γ : Layout} (hd : d.toNat ≤ next) :
      Effect pool captureCount next .loop [d] Γ [(next - d.toNat, Γ)]
  | call {n : UInt8} {Γ : Layout} :
      Effect pool captureCount next .call [n]
        (List.replicate (n.toNat + 1) temporary ++ Γ) [(next, temporary :: Γ)]
  /-- The slot that the closure is put into may be one of the captured ones. -/
  | closure {k : UInt8} {pairs : List UInt8} {f : Function Value} {κ : SlotKind}
      {Γ : Layout} (hk : pool[k.toNat]? = some (.function f))
      (hsize : pairs.length = 2 * f.captureCount) (hword : pairs.length < UInt64.size)
      (hpairs : ∀ c ∈ Instruction.capturesOf pairs, c.Allowed captureCount (κ :: Γ)) :
      Effect pool captureCount next .closure (k :: pairs) Γ [(next, κ :: Γ)]
  | «return» {Γ : Layout} :
      Effect pool captureCount next .return [] (temporary :: Γ) []

theorem Effect.operands_return {pool : Array Value} {count next : Nat}
    {operands : List UInt8} {Γ : Layout} {after : List (Nat × Layout)}
    (h : Effect pool count next .return operands Γ after) : operands = [] := by
  cases h with
  | literal hop => rfl
  | binary hop => rfl
  | unary hop => rfl
  | «return» => rfl

/-- More constants and more captures take nothing away. -/
theorem Effect.mono {pool pool' : Array Value} {count count' next : Nat} {op : Opcode}
    {operands : List UInt8} {Γ : Layout} {after : List (Nat × Layout)}
    (h : Effect pool count next op operands Γ after)
    (hpool : ∀ (k : Nat) (v : Value), pool[k]? = some v → pool'[k]? = some v)
    (hcount : count ≤ count') :
    Effect pool' count' next op operands Γ after := by
  cases h with
  | literal hop => exact .literal hop
  | constant hk hv => exact .constant (hpool _ _ hk) hv
  | pop hκ hcallee => exact .pop hκ hcallee
  | closeUpvalue => exact .closeUpvalue
  | getLocal hpos hk => exact .getLocal hpos hk
  | setLocal hpos hk => exact .setLocal hpos hk
  | getGlobal hk => exact .getGlobal (hpool _ _ hk)
  | defineGlobal hk => exact .defineGlobal (hpool _ _ hk)
  | setGlobal hk => exact .setGlobal (hpool _ _ hk)
  | getUpvalue hk => exact .getUpvalue (Nat.lt_of_lt_of_le hk hcount)
  | setUpvalue hk => exact .setUpvalue (Nat.lt_of_lt_of_le hk hcount)
  | binary hop => exact .binary hop
  | unary hop => exact .unary hop
  | jump => exact .jump
  | jumpIfFalse => exact .jumpIfFalse
  | loop hd => exact .loop hd
  | call => exact .call
  | closure hk hsize hword hpairs =>
    refine .closure (hpool _ _ hk) hsize hword fun c hc => ?_
    have hallowed := hpairs c hc
    unfold Capture.Allowed at hallowed ⊢
    split
    · next hlocal => rwa [if_pos hlocal] at hallowed
    · next hlocal =>
      rw [if_neg hlocal] at hallowed
      exact Nat.lt_of_lt_of_le hallowed hcount
  | «return» => exact .return

end ScriptEngine
