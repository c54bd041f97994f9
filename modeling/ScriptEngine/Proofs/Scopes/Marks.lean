import ScriptEngine.Proofs.Loops.Course
import ScriptEngine.Proofs.Machine.Lifetimes
set_option autoImplicit false

/-!
# Flows that spare captured variables

Each value on the stack of a call is marked or not.  `Flow.Spares` says that a flow captures nothing
but marked slots and assigns to none of them, and which marks it leaves.  Code of such a flow spares
what it captures (`Flow.Spares.sparesCaptures`): a value keeps its mark as long as it stays on the
stack, so that control cannot get from an assignment to a slot to a capture of it, or back, without
giving up the slot in between.
-/

namespace ScriptEngine

open Machine

/-! ## Flows with marks -/

/-- The values on the stack of a call, newest first, and whether each of them is a captured
variable or becomes one. -/
abbrev Marks : Type := List Bool

/-- The flow is one of a function with `level` functions around it.  Begun with some marks, it
captures marked slots only, assigns to none of them, and ends with other marks. -/
inductive Flow.Spares : Nat → Marks → Flow → Marks → Prop where
  | nil {level : Nat} {Γ : Marks} : Spares level Γ .nil Γ
  | seq {level : Nat} {Γ Δ Θ : Marks} {a b : Flow} (first : Spares level Γ a Δ)
      (second : Spares level Δ b Θ) : Spares level Γ (.seq a b) Θ
  | direct {level : Nat} {Γ new : Marks} {op : Opcode} {operands : List UInt8}
      (count : new.length = (Instruction.mk 0 0 op operands).gives)
      (unmarked : op = .setLocal → ∀ k ∈ operands, fromOldest? Γ k.toNat ≠ some true) :
      Spares level Γ (.direct op operands)
        (new ++ Γ.drop (Instruction.mk 0 0 op operands).takes)
  /-- Nothing follows a return. -/
  | returns {level : Nat} {Γ Δ : Marks} : Spares level Γ (.direct .return []) Δ
  | pooled {level : Nat} {Γ new : Marks} {op : Opcode} {v : Value}
      (count : new.length = (Instruction.mk 0 0 op []).gives) :
      Spares level Γ (.pooled op v) (new ++ Γ.drop (Instruction.mk 0 0 op []).takes)
  | captured {level : Nat} {Γ : Marks} {b : Bool} {h : Home} :
      Spares level Γ (.captured .getUpvalue h) (b :: Γ)
  /-- The slot that the closure is put into may be one of the captured ones. -/
  | closure {level arity : Nat} {Γ Γ₀ Δ₀ : Marks} {b : Bool} {id : Identity} {name : String}
      {homes : List Home} {a body : Flow} (entered : Γ₀.length = 1 + arity)
      (inside : Spares (level + 1) Γ₀ a Δ₀) (whole : body = a.finish)
      (marked : ∀ h ∈ homes, h.level = level → fromOldest? (b :: Γ) h.slot = some true) :
      Spares level Γ (.closure id name arity homes body) (b :: Γ)
  | split {level : Nat} {Γ Δ : Marks} {a b : Flow} (yes : Spares level Γ a Δ)
      (no : Spares level Γ b Δ) : Spares level Γ (.split a b) Δ
  | loop {level : Nat} {Γ : Marks} {b : Bool} {c a : Flow}
      (condition : Spares level Γ c (b :: Γ)) (body : Spares level Γ a Γ) :
      Spares level Γ (.loop c a) Γ
  | forever {level : Nat} {Γ : Marks} {a : Flow} (body : Spares level Γ a Γ) :
      Spares level Γ (.forever a) Γ
  | absent {level : Nat} {Γ Δ : Marks} : Spares level Γ .absent Δ

/-- All that a course has ahead, up to its returns, captures marked slots only and assigns to none
of them. -/
inductive Course.Spares (level : Nat) : Marks → Course → Prop where
  | act {Γ Δ : Marks} {a : Flow} {rest : Course} (first : a.Spares level Γ Δ)
      (later : Spares level Δ rest) : Spares level Γ (.act a rest)
  | returns {Γ : Marks} {a : Flow} {rest : Course} (isReturn : a.isReturn = true) :
      Spares level Γ (.act a rest)
  | test {Γ : Marks} {yes no : Course} (taken : Spares level Γ yes) (skipped : Spares level Γ no) :
      Spares level Γ (.test yes no)
  | again {Γ Δ : Marks} {a : Flow} {rest : Course} (round : a.Spares level Γ Δ)
      (later : Spares level Δ rest) : Spares level Γ (.again a rest)

namespace Flow

variable {level : Nat} {Γ Δ Θ : Marks} {a b : Flow} {rest : Course}

/-- An instruction other than an assignment, and what it puts on the stack. -/
theorem spares_direct {op : Opcode} {operands : List UInt8} (hop : op ≠ .setLocal) (new : Marks)
    (hcount : new.length = (Instruction.mk 0 0 op operands).gives)
    (hleft : Δ = new ++ Γ.drop (Instruction.mk 0 0 op operands).takes) :
    (direct op operands).Spares level Γ Δ := by
  subst hleft
  exact .direct hcount fun hset => absurd hset hop

/-- An assignment to a slot without a mark. -/
theorem spares_setLocal {k : UInt8} (hfree : fromOldest? Γ k.toNat ≠ some true) :
    (direct .setLocal [k]).Spares level Γ Γ :=
  @Spares.direct level Γ [] .setLocal [k] rfl fun _ => List.forall_mem_singleton.mpr hfree

/-- An instruction with a constant, and what it puts on the stack. -/
theorem spares_pooled {op : Opcode} {v : Value} (new : Marks)
    (hcount : new.length = (Instruction.mk 0 0 op []).gives)
    (hleft : Δ = new ++ Γ.drop (Instruction.mk 0 0 op []).takes) :
    (pooled op v).Spares level Γ Δ := by
  subst hleft
  exact .pooled hcount

theorem spares_pop (b : Bool) (Γ : Marks) : (direct .pop []).Spares level (b :: Γ) Γ :=
  spares_direct (by decide) [] rfl rfl

theorem Spares.append (ha : a.Spares level Γ Δ) (hb : b.Spares level Δ Θ) :
    (a ++ b).Spares level Γ Θ := by
  rcases append_eq a b with heq | rfl | rfl
  · rw [heq]
    exact .seq ha hb
  · cases ha
    exact hb
  · cases hb
    rwa [append_nil]

/-- A flow comes before what spares captured variables as well. -/
theorem Spares.before (h : a.Spares level Γ Δ) (hrest : rest.Spares level Δ) :
    (a.before rest).Spares level Γ := by
  induction h generalizing rest with
  | nil => exact hrest
  | seq _ _ iha ihb => exact iha (ihb hrest)
  | direct count unmarked => exact .act (.direct count unmarked) hrest
  | returns => exact .returns rfl
  | pooled count => exact .act (.pooled count) hrest
  | captured => exact .act .captured hrest
  | closure entered inside whole marked =>
    exact .act (.closure entered inside whole marked) hrest
  | split _ _ iha ihb => exact .test (iha hrest) (ihb hrest)
  | @loop _ Γ b _ _ condition body ihc iha =>
    exact ihc (.test (.act (spares_pop b Γ) (iha (.again (.loop condition body) hrest)))
      (.act (spares_pop b Γ) hrest))
  | forever body ih => exact ih (.again (.forever body) hrest)
  | absent => exact .act .absent hrest

/-- Nothing matters that stands behind a return. -/
theorem Spares.before_of_endsInReturn (h : a.Spares level Γ Δ)
    (hends : a.endsInReturn false = true) (rest : Course) : (a.before rest).Spares level Γ := by
  induction h generalizing rest with
  | @seq _ _ _ _ a b first _ iha ihb =>
    change b.endsInReturn (a.endsInReturn false) = true at hends
    rcases endsInReturn_cases b with hb | hb
    · exact iha ((hb _).symm.trans hends) _
    · exact first.before (ihb ((hb _).symm.trans hends) rest)
  | direct | returns => exact .returns hends
  | _ => cases hends

/-- The body of a function, which always returns. -/
theorem Spares.finish (h : a.Spares level Γ Δ) : (a.finish.before .done).Spares level Γ := by
  unfold Flow.finish
  split
  · next hends => exact h.before_of_endsInReturn hends .done
  · rw [before_append]
    have hnil : (Flow.direct .nil []).Spares level Δ (false :: Δ) :=
      spares_direct (by decide) [false] rfl rfl
    exact h.before (.act hnil (.returns rfl))

end Flow
/-! ## Instructions with marks -/

/-- The instruction captures marked slots only and assigns to none of them.  The marks are taken off
the stack and put on it together with the values. -/
structure Instruction.Spares (i : Instruction) (Γ Δ : Marks) : Prop where
  shifts : ∃ new : Marks, new.length = i.gives ∧ Δ = new ++ Γ.drop i.takes
  cells : i.op ≠ .setUpvalue
  unmarked : ∀ slot, i.assigns? = some slot → fromOldest? Γ slot ≠ some true
  marked : ∀ slot, ⟨true, slot⟩ ∈ i.captures → fromOldest? Δ slot = some true

section Instructions

variable {i : Instruction} {Γ Δ : Marks} {op : Opcode} {operands : List UInt8} {o line : Nat}

/-- An instruction that neither assigns to a slot nor captures one. -/
theorem Instruction.spares_of_ne (hset : op ≠ .setLocal) (hcell : op ≠ .setUpvalue)
    (hclosure : op ≠ .closure)
    (hshifts : ∃ new : Marks, new.length = (Instruction.mk o line op operands).gives ∧
      Δ = new ++ Γ.drop (Instruction.mk o line op operands).takes) :
    (Instruction.mk o line op operands).Spares Γ Δ where
  shifts := hshifts
  cells := hcell
  unmarked slot h := by
    rw [Instruction.assigns?, if_neg hset] at h
    cases h
  marked slot h := by
    rw [Instruction.captures_of_ne _ hclosure] at h
    cases h

/-- A value that stays on the stack keeps its mark. -/
theorem Instruction.Spares.kept (h : i.Spares Γ Δ) {kept k : Nat}
    (hkept : kept + i.takes ≤ Γ.length) (hk : k < kept) : fromOldest? Δ k = fromOldest? Γ k := by
  obtain ⟨new, -, rfl⟩ := h.shifts
  have hbelow : k < (Γ.drop i.takes).length := by
    rw [List.length_drop]
    omega
  rw [fromOldest_append hbelow]
  conv_rhs => rw [← List.take_append_drop i.takes Γ]
  exact (fromOldest_append hbelow).symm

theorem Instruction.Spares.length_eq (h : i.Spares Γ Δ) :
    Δ.length = Γ.length - i.takes + i.gives := by
  obtain ⟨new, hnew, rfl⟩ := h.shifts
  rw [List.length_append, List.length_drop, hnew, Nat.add_comm]

/-- Where control goes on behind an instruction that does not jump. -/
theorem Instruction.nexts_of_isDirect
    (hop : (op.isDirect || op.isPooled || op.isCapturing || decide (op = .closure)) = true) :
    ∀ next ∈ (Instruction.mk o line op operands).nexts, next = o + (operands.length + 1) := by
  intro next hnext
  have hbehind : (Instruction.mk o line op operands).nexts ⊆ [o + (operands.length + 1)] := by
    cases op <;> first | exact List.Subset.refl _ | exact List.nil_subset _ | cases hop
  exact List.mem_singleton.mp (hbehind hnext)

/-- Code of a single instruction that spares captured variables. -/
theorem Flow.Spares.instruction {c : Chunk Value} {level : Nat} {homes : List Home} {a : Flow}
    {bytes : List UInt8} (h : a.Spares level Γ Δ) (hsingle : a.isSingle = true)
    (hcode : a.IsCode c.constants level homes bytes) (hstands : c.Holds o bytes)
    (hlines : c.code.size ≤ c.lines.size) :
    ∃ i Θ, c.decode o = .ok i ∧ i.Spares Γ Θ ∧
      ∀ next ∈ i.nexts, next = o + bytes.length ∧ Θ = Δ := by
  have hbehind : ∀ {i : Instruction}, (∀ next ∈ i.nexts, next = o + bytes.length) →
      ∀ next ∈ i.nexts, next = o + bytes.length ∧ Δ = Δ := fun h next hnext => ⟨h next hnext, rfl⟩
  cases hcode with
  | @direct _ _ _ op operands kind count =>
    have hcount : c.operandBytes o op = .ok operands.length := by
      rw [count]
      cases op <;> first | rfl | cases kind
    obtain ⟨line, hdecode⟩ := Chunk.decode_of_holds hlines hstands hcount
    cases h with
    | returns =>
      exact ⟨_, Γ, hdecode, Instruction.spares_of_ne nofun nofun nofun ⟨[], rfl, rfl⟩,
        List.forall_mem_nil _⟩
    | @direct _ _ new _ _ length unmarked =>
      refine ⟨_, _, hdecode, ?_, hbehind (Instruction.nexts_of_isDirect (by rw [kind]; rfl))⟩
      refine ⟨⟨new, length, rfl⟩, ?_, fun slot hslot => ?_, fun slot hslot => ?_⟩
      · rintro rfl
        cases kind
      · unfold Instruction.assigns? at hslot
        split at hslot
        · next hop =>
          obtain ⟨k, hk, rfl⟩ := Option.map_eq_some_iff.mp hslot
          exact unmarked hop k (List.mem_of_head? hk)
        · cases hslot
      · rw [Instruction.captures_of_ne _ (by rintro rfl; cases kind)] at hslot
        cases hslot
  | @pooled _ _ _ op v k kind literal constant =>
    have hcount : c.operandBytes o op = .ok [k].length := by
      cases op <;> first | rfl | cases kind
    obtain ⟨line, hdecode⟩ := Chunk.decode_of_holds hlines hstands hcount
    refine ⟨_, _, hdecode, ?_, hbehind (Instruction.nexts_of_isDirect (by simp [kind]))⟩
    cases h with
    | @pooled _ _ new _ _ length =>
      refine Instruction.spares_of_ne ?_ ?_ ?_ ⟨new, length, ?_⟩
      · rintro rfl
        cases kind
      · rintro rfl
        cases kind
      · rintro rfl
        cases kind
      · cases op <;> first | rfl | cases kind
  | @captured _ _ _ op home k kind index =>
    cases h with
    | captured =>
      obtain ⟨line, hdecode⟩ := Chunk.decode_of_holds hlines hstands rfl
      refine ⟨_, _, hdecode, ?_, hbehind (Instruction.nexts_of_isDirect rfl)⟩
      exact Instruction.spares_of_ne nofun nofun nofun ⟨[_], rfl, rfl⟩
  | @closure _ _ _ _ k pairs g name body constant title count word within captures ends inside =>
    have hcount : c.operandBytes o .closure = .ok (k :: pairs).length :=
      Chunk.operandBytes_of_pairs (hstands 1 k rfl) constant count word
    obtain ⟨line, hdecode⟩ := Chunk.decode_of_holds hlines hstands hcount
    refine ⟨_, _, hdecode, ?_, hbehind (Instruction.nexts_of_isDirect rfl)⟩
    cases h with
    | closure _ _ _ marked =>
      refine ⟨⟨[_], rfl, rfl⟩, nofun, nofun, fun slot hslot => ?_⟩
      have hmem : (⟨true, slot⟩ : Capture) ∈ Instruction.capturesOf pairs := hslot
      exact marked _ ((captures _).mp (List.mem_map_of_mem hmem)) rfl
  | _ => cases hsingle

end Instructions

/-! ## Control flow with marks -/

/-- Control is at a spot with a mark for each slot, and the code ahead of it spares captured
variables. -/
structure Function.Tracks (p : Function Value) (level : Nat) (homes : List Home) (s : Spot)
    (Γ : Marks) : Prop where
  height : s.height = Γ.length
  ahead : ∃ rest, Follows p.chunk level homes s.offset rest ∧ rest.Spares level Γ

namespace Function

variable {p : Function Value} {level : Nat} {homes : List Home} {s s' : Spot} {Γ : Marks}
  {kept : Nat} {i : Instruction}

/-- A jump leaves the marks as they are. -/
theorem spares_jump {o line : Nat} {d : UInt8} {op : Opcode}
    (hop : op = .jump ∨ op = .jumpIfFalse ∨ op = .loop) :
    (Instruction.mk o line op [d]).Spares Γ Γ := by
  rcases hop with rfl | rfl | rfl <;>
    exact Instruction.spares_of_ne nofun nofun nofun ⟨[], rfl, rfl⟩

/-- Where a loop starts again. -/
theorem nexts_loop {o line start : Nat} {d : UInt8} (htarget : start + d.toNat = o + 2) :
    (Instruction.mk o line .loop [d]).nexts = [start] := by
  have hloop : (Instruction.mk o line .loop [d]).target? = some start := by
    show (if d.toNat ≤ o + 2 then some (o + 2 - d.toNat) else none) = _
    rw [if_pos (Nat.le_of_add_left_le htarget.le), Nat.sub_eq_of_eq_add htarget.symm]
  show (Instruction.mk o line .loop [d]).target?.toList = _
  rw [hloop]
  rfl

/-- The instruction at a spot spares captured variables, and so does the code behind it. -/
theorem Tracks.instruction (h : p.Tracks level homes s Γ)
    (hlines : p.chunk.code.size ≤ p.chunk.lines.size) :
    ∃ i Δ, p.chunk.decode s.offset = .ok i ∧ i.Spares Γ Δ ∧
      ∀ next ∈ i.nexts, p.Tracks level homes ⟨next, Δ.length⟩ Δ := by
  obtain ⟨rest, hfollows, hspares⟩ := h.ahead
  cases hfollows with
  | done => cases hspares
  | @act _ next a rest bytes single code stands behind later =>
    cases hspares with
    | @act _ Δ _ _ first later' =>
      obtain ⟨i, Θ, hi, hinstruction, hnexts⟩ := first.instruction single code stands hlines
      refine ⟨i, Θ, hi, hinstruction, fun o ho => ?_⟩
      obtain ⟨ho, rfl⟩ := hnexts o ho
      exact ⟨rfl, rest, (ho.trans behind.symm) ▸ later, later'⟩
    | returns isReturn =>
      unfold Flow.isReturn at isReturn
      split at isReturn
      · cases code
        obtain ⟨line, hdecode⟩ := Chunk.decode_of_holds hlines stands rfl
        exact ⟨_, Γ, hdecode, Instruction.spares_of_ne nofun nofun nofun ⟨[], rfl, rfl⟩,
          List.forall_mem_nil _⟩
      · cases isReturn
  | @test _ next other d yes no stands behind past taken skipped =>
    cases hspares with
    | test taken' skipped' =>
      obtain ⟨line, hdecode⟩ := Chunk.decode_of_holds hlines stands rfl
      refine ⟨_, Γ, hdecode, spares_jump (.inr (.inl rfl)), List.forall_mem_cons.mpr
        ⟨⟨rfl, yes, behind ▸ taken, taken'⟩, List.forall_mem_singleton.mpr ⟨rfl, no, ?_, skipped'⟩⟩⟩
      exact past ▸ skipped
  | @again _ start next d a rest bytes stands target code whole behind later =>
    cases hspares with
    | again round later' =>
      obtain ⟨line, hdecode⟩ := Chunk.decode_of_holds hlines stands rfl
      refine ⟨_, Γ, hdecode, spares_jump (.inr (.inr rfl)), ?_⟩
      rw [nexts_loop target]
      exact List.forall_mem_singleton.mpr
        ⟨rfl, _, .before code rfl whole behind later, round.before later'⟩
  | @ahead _ next d rest stands target later =>
    obtain ⟨line, hdecode⟩ := Chunk.decode_of_holds hlines stands rfl
    refine ⟨_, Γ, hdecode, spares_jump (.inl rfl), List.forall_mem_singleton.mpr
      ⟨rfl, rest, target ▸ later, hspares⟩⟩
  | @back _ start d rest stands target later =>
    obtain ⟨line, hdecode⟩ := Chunk.decode_of_holds hlines stands rfl
    refine ⟨_, Γ, hdecode, spares_jump (.inr (.inr rfl)), ?_⟩
    rw [nexts_loop target]
    exact List.forall_mem_singleton.mpr ⟨rfl, rest, later, hspares⟩

/-- While the lowest values stay on the stack, they keep their marks. -/
theorem Tracks.onward (h : p.Tracks level homes s Γ)
    (hlines : p.chunk.code.size ≤ p.chunk.lines.size) (hs' : s' ∈ p.onward kept s) :
    ∃ Δ, p.Tracks level homes s' Δ ∧ ∀ k < kept, fromOldest? Δ k = fromOldest? Γ k := by
  obtain ⟨i, Δ, hi, hspares, hnexts⟩ := h.instruction hlines
  unfold Function.onward at hs'
  rw [hi] at hs'
  dsimp only at hs'
  split at hs'
  · next hkept =>
    obtain ⟨next, hnext, rfl⟩ := List.mem_map.mp hs'
    rw [h.height] at hkept ⊢
    rw [← hspares.length_eq]
    exact ⟨Δ, hnexts next hnext, fun k hk => hspares.kept hkept hk⟩
  · cases hs'

theorem Tracks.leads (h : p.Tracks level homes s Γ)
    (hlines : p.chunk.code.size ≤ p.chunk.lines.size) (hleads : p.Leads kept s s') :
    ∃ Δ, p.Tracks level homes s' Δ ∧ ∀ k < kept, fromOldest? Δ k = fromOldest? Γ k := by
  induction hleads with
  | refl => exact ⟨Γ, h, fun _ _ => rfl⟩
  | tail _ hstep ih =>
    obtain ⟨Δ, htracks, hsame⟩ := ih
    obtain ⟨Θ, htracks', hsame'⟩ := htracks.onward hlines hstep
    exact ⟨Θ, htracks', fun k hk => (hsame' k hk).trans (hsame k hk)⟩

/-- What stays on the stack while control moves is there in the end. -/
theorem Leads.height (h : p.Leads kept s s') : s' = s ∨ kept ≤ s'.height := by
  cases h with
  | refl => exact .inl rfl
  | tail _ hstep =>
    right
    unfold Function.onward at hstep
    split at hstep
    · split at hstep
      · obtain ⟨next, -, rfl⟩ := List.mem_map.mp hstep
        dsimp only
        omega
      · cases hstep
    · cases hstep

theorem op_of_captures {c : Capture} (h : c ∈ i.captures) : i.op = .closure := by
  by_contra hne
  rw [i.captures_of_ne hne] at h
  cases h

theorem op_of_assigns {slot : Nat} (h : i.assigns? = some slot) : i.op = .setLocal := by
  unfold Instruction.assigns? at h
  split at h
  · assumption
  · cases h

/-- An instruction that captures a slot leaves the slot marked. -/
theorem Tracks.captures (h : p.Tracks level homes s Γ)
    (hlines : p.chunk.code.size ≤ p.chunk.lines.size) (hi : p.chunk.decode s.offset = .ok i)
    {slot : Nat} (hcapture : ⟨true, slot⟩ ∈ i.captures) :
    ∃ Δ, p.Tracks level homes (i.behind s) Δ ∧ fromOldest? Δ slot = some true ∧
      (slot < s.height → fromOldest? Γ slot = some true) := by
  obtain ⟨j, Δ, hj, hspares, hnexts⟩ := h.instruction hlines
  obtain rfl : j = i := Except.ok.inj (hj.symm.trans hi)
  have hop := op_of_captures hcapture
  have hmarked := hspares.marked slot hcapture
  have htakes : j.takes = 0 := by
    unfold Instruction.takes
    rw [hop]
    rfl
  have hlength : Δ.length = s.height + 1 := by
    have hgives : j.gives = 1 := by
      unfold Instruction.gives
      rw [hop]
      rfl
    rw [hspares.length_eq, htakes, hgives, h.height, Nat.sub_zero]
  have hnext : j.offset + j.size ∈ j.nexts := by
    unfold Instruction.nexts
    rw [hop]
    exact List.mem_singleton_self _
  have hbehind := hnexts _ hnext
  rw [hlength] at hbehind
  refine ⟨Δ, hbehind, hmarked, fun hlt => ?_⟩
  rw [← hspares.kept ?_ (Nat.lt_succ_self slot)]
  · exact hmarked
  · rw [htakes, ← h.height]
    exact hlt

/-- A function spares what it captures if its code does from where it is entered. -/
theorem Tracks.sparesCaptures (h : p.Tracks level homes ⟨0, 1 + p.arity⟩ Γ)
    (hlines : p.chunk.code.size ≤ p.chunk.lines.size) : p.SparesCaptures where
  cells s i hs hi := by
    obtain ⟨Δ, htracks, -⟩ := h.leads hlines hs
    obtain ⟨j, _, hj, hspares, -⟩ := htracks.instruction hlines
    obtain rfl : j = i := Except.ok.inj (hj.symm.trans hi)
    exact hspares.cells
  locals s i s' i' slot hs hi hassigns hs' hi' hcapture := by
    obtain ⟨Δ, htracks, -⟩ := h.leads hlines hs
    obtain ⟨Δ', htracks', -⟩ := h.leads hlines hs'
    have hunmarked : ∀ Θ, p.Tracks level homes s Θ → fromOldest? Θ slot ≠ some true := by
      intro Θ hΘ
      obtain ⟨j, _, hj, hspares, -⟩ := hΘ.instruction hlines
      obtain rfl : j = i := Except.ok.inj (hj.symm.trans hi)
      exact hspares.unmarked slot hassigns
    refine ⟨fun hleads => ?_, fun hleads => ?_⟩
    · obtain ⟨Θ, hΘ, hsame⟩ := htracks.leads hlines hleads
      obtain ⟨_, -, -, hmarked⟩ := hΘ.captures hlines hi' hcapture
      refine hunmarked Δ htracks ?_
      rw [← hsame slot (Nat.lt_succ_self slot)]
      refine hmarked (hleads.height.resolve_left ?_)
      rintro rfl
      obtain rfl := Except.ok.inj (hi.symm.trans hi')
      cases op_of_assigns hassigns ▸ op_of_captures hcapture
    · obtain ⟨Θ, hΘ, hmarked, -⟩ := htracks'.captures hlines hi' hcapture
      obtain ⟨Λ, hΛ, hsame⟩ := hΘ.leads hlines hleads
      exact hunmarked Λ hΛ ((hsame slot (Nat.lt_succ_self slot)).trans hmarked)

end Function

end ScriptEngine
