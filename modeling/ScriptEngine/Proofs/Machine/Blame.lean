import ScriptEngine.Proofs.Machine.Reading
set_option autoImplicit false

/-!
# Machine: where an instruction breaks off

A failure carries the offset behind the last byte that was read before it, and the line
of that byte is the one that is blamed.  Whatever the code is, an instruction that fails
breaks off behind its opcode and within its own bytes (`breaks_within_instruction`): the
bytes are read one after the other, and no jump is made before everything that can fail
about it was checked.
-/

namespace ScriptEngine

variable {World : Type}

/-! ## Attempts that break off -/

namespace Attempt

variable {α β : Type} {lo hi : Nat}

/-- The attempt succeeds, or it breaks off between two offsets. -/
structure BreaksIn (lo hi : Nat) (x : Attempt α) : Prop where
  between : ∀ failure, x = .error failure → lo ≤ failure.ip ∧ failure.ip ≤ hi

theorem breaksIn_ok (a : α) : BreaksIn lo hi (.ok a) := ⟨nofun⟩

theorem BreaksIn.mono {lo' hi' : Nat} {x : Attempt α} (h : BreaksIn lo hi x) (hlo : lo' ≤ lo)
    (hhi : hi ≤ hi') : BreaksIn lo' hi' x where
  between failure hx :=
    ⟨Nat.le_trans hlo (h.between failure hx).1, Nat.le_trans (h.between failure hx).2 hhi⟩

theorem BreaksIn.bind {x : Attempt α} {k : α → Attempt β} (h : BreaksIn lo hi x)
    (hk : ∀ a, x = .ok a → BreaksIn lo hi (k a)) : BreaksIn lo hi (x >>= k) := by
  cases x with
  | error e => exact ⟨fun failure hfailure => h.between failure (by cases hfailure; rfl)⟩
  | ok a => exact hk a rfl

end Attempt

namespace Frame

open Attempt

variable {f g : Frame} {α : Type}

theorem breaksIn_fail (f : Frame) (fault : Fault) :
    BreaksIn f.ip f.ip (f.fail fault : Attempt α) where
  between failure hfailure := by
    cases hfailure
    exact ⟨Nat.le_refl _, Nat.le_refl _⟩

theorem breaksIn_expect (f : Frame) (fault : Fault) (found : Option α) :
    BreaksIn f.ip f.ip (f.expect fault found) := by
  cases found with
  | none => exact breaksIn_fail f fault
  | some a => exact breaksIn_ok a

/-- What is done one byte behind a place breaks off one byte behind it. -/
theorem breaksIn_behind {x : Attempt α} (hip : g.ip = f.ip + 1) (hx : BreaksIn g.ip g.ip x) :
    BreaksIn f.ip (f.ip + 1) x :=
  hx.mono (hip ▸ Nat.le_succ _) (Nat.le_of_eq hip)

/-! ### Reading code -/

theorem breaksIn_fetch (f : Frame) : BreaksIn f.ip f.ip f.fetch :=
  (breaksIn_expect ..).bind fun _ _ => breaksIn_ok _

/-- What follows the reading of a byte breaks off behind it. -/
theorem breaksIn_fetch_bind (n : Nat) {k : UInt8 × Frame → Attempt α}
    (hk : ∀ (byte : UInt8) (g : Frame), g.ip = f.ip + 1 → BreaksIn g.ip (g.ip + n) (k (byte, g))) :
    BreaksIn f.ip (f.ip + 1 + n) (f.fetch >>= k) := by
  refine (f.breaksIn_fetch.mono (Nat.le_refl _) (by omega)).bind fun ⟨byte, g⟩ hbyte => ?_
  have hip : g.ip = f.ip + 1 := congrArg Frame.ip (fetch_ok hbyte).2
  exact (hk byte g hip).mono (hip ▸ Nat.le_succ _) (by omega)

theorem breaksIn_fetchConstant (f : Frame) : BreaksIn f.ip (f.ip + 1) f.fetchConstant :=
  breaksIn_fetch_bind 0 fun _ _ _ => (breaksIn_expect ..).bind fun _ _ => breaksIn_ok _

theorem breaksIn_fetchName (f : Frame) : BreaksIn f.ip (f.ip + 1) f.fetchName := by
  refine f.breaksIn_fetchConstant.bind fun ⟨v, g⟩ hv => ?_
  obtain ⟨-, -, -, rfl⟩ := fetchConstant_ok hv
  refine breaksIn_behind (g := f.goTo (f.ip + 1) f.slots) rfl ?_
  dsimp only
  split
  · exact breaksIn_ok _
  · exact breaksIn_fail ..

theorem breaksIn_fetchFunction (f : Frame) : BreaksIn f.ip (f.ip + 1) f.fetchFunction := by
  refine f.breaksIn_fetchConstant.bind fun ⟨v, g⟩ hv => ?_
  obtain ⟨-, -, -, rfl⟩ := fetchConstant_ok hv
  refine breaksIn_behind (g := f.goTo (f.ip + 1) f.slots) rfl ?_
  dsimp only
  split
  · exact breaksIn_ok _
  · exact breaksIn_fail ..

theorem ip_of_fetchName {name : String} (h : f.fetchName = .ok (name, g)) :
    g.ip = f.ip + 1 := by
  obtain ⟨-, -, rfl⟩ := fetchName_ok h
  rfl

/-! ### The stack -/

theorem Beside.ip_eq (h : f.Beside g) : g.ip = f.ip := by
  obtain ⟨slots, rfl⟩ := h
  rfl

/-- What is done with the frame beside breaks off at the same place. -/
theorem Beside.breaksIn {x : Attempt α} (h : f.Beside g) (hx : BreaksIn g.ip g.ip x) :
    BreaksIn f.ip f.ip x := h.ip_eq ▸ hx

theorem breaksIn_peek (f : Frame) : BreaksIn f.ip f.ip f.peek := breaksIn_expect ..

theorem breaksIn_pop (f : Frame) : BreaksIn f.ip f.ip f.pop :=
  f.breaksIn_peek.bind fun _ _ => breaksIn_ok _

theorem breaksIn_popTwo (f : Frame) : BreaksIn f.ip f.ip f.popTwo :=
  f.breaksIn_pop.bind fun ⟨_, g⟩ hupper =>
    (beside_pop hupper).breaksIn (g.breaksIn_pop.bind fun _ _ => breaksIn_ok _)

theorem breaksIn_popTwoNumbers (f : Frame) : BreaksIn f.ip f.ip f.popTwoNumbers := by
  refine f.breaksIn_popTwo.bind fun ⟨x, y, g⟩ hpop => (beside_popTwo hpop).breaksIn ?_
  split
  · exact breaksIn_ok _
  · next heq =>
    cases heq
    exact breaksIn_fail ..

theorem breaksIn_setSlot (f : Frame) (i : Nat) (v : Value) :
    BreaksIn f.ip f.ip (f.setSlot i v) := by
  unfold setSlot
  split
  · exact breaksIn_ok _
  · exact breaksIn_fail ..

theorem breaksIn_jumpBack (f : Frame) (distance : Nat) :
    BreaksIn f.ip f.ip (f.jumpBack distance) := by
  unfold jumpBack
  split
  · exact breaksIn_ok _
  · exact breaksIn_fail ..

theorem breaksIn_condition (f : Frame) : BreaksIn f.ip f.ip f.condition :=
  f.breaksIn_peek.bind fun _ _ => breaksIn_expect ..

end Frame

namespace Machine

open Attempt ScriptEngine.Frame

/-! ## Instructions within a frame -/

section Operators

variable (f : Frame)

theorem breaksIn_add : BreaksIn f.ip f.ip (add f) :=
  f.breaksIn_popTwo.bind fun ⟨_, _, _⟩ hpop =>
    (beside_popTwo hpop).breaksIn ((breaksIn_expect ..).bind fun _ _ => breaksIn_ok _)

theorem breaksIn_arithmetic (op : Float → Float → Float) :
    BreaksIn f.ip f.ip (arithmetic op f) :=
  f.breaksIn_popTwoNumbers.bind fun _ _ => breaksIn_ok _

theorem breaksIn_comparison (op : Float → Float → Bool) :
    BreaksIn f.ip f.ip (comparison op f) :=
  f.breaksIn_popTwoNumbers.bind fun _ _ => breaksIn_ok _

theorem breaksIn_equality : BreaksIn f.ip f.ip (equality f) :=
  f.breaksIn_popTwo.bind fun _ _ => breaksIn_ok _

theorem breaksIn_negation : BreaksIn f.ip f.ip (negation f) :=
  f.breaksIn_pop.bind fun ⟨_, _⟩ hpop =>
    (beside_pop hpop).breaksIn ((breaksIn_expect ..).bind fun _ _ => breaksIn_ok _)

theorem breaksIn_opposite : BreaksIn f.ip f.ip (opposite f) :=
  f.breaksIn_pop.bind fun ⟨_, _⟩ hpop =>
    (beside_pop hpop).breaksIn ((breaksIn_expect ..).bind fun _ _ => breaksIn_ok _)

/-- An instruction within a frame reads its operand before it does anything. -/
theorem breaksIn_runLocal (op : Opcode) :
    BreaksIn f.ip (f.ip + op.operandBytes) (runLocal op f) := by
  cases op with
  | constant => exact f.breaksIn_fetchConstant.bind fun _ _ => breaksIn_ok _
  | pop => exact f.breaksIn_pop.bind fun _ _ => breaksIn_ok _
  | getLocal =>
    exact breaksIn_fetch_bind 0 fun _ _ _ =>
      (breaksIn_expect ..).bind fun _ _ => breaksIn_ok _
  | setLocal =>
    exact breaksIn_fetch_bind 0 fun _ _ _ =>
      (breaksIn_peek _).bind fun _ _ => breaksIn_setSlot ..
  | equal => exact breaksIn_equality f
  | greater => exact breaksIn_comparison f fun x y => y < x
  | less => exact breaksIn_comparison f fun x y => x < y
  | add => exact breaksIn_add f
  | subtract | multiply | divide => exact breaksIn_arithmetic f _
  | not => exact breaksIn_negation f
  | negate => exact breaksIn_opposite f
  | jump => exact breaksIn_fetch_bind 0 fun _ _ _ => breaksIn_ok _
  | jumpIfFalse =>
    exact breaksIn_fetch_bind 0 fun _ _ _ =>
      (breaksIn_condition _).bind fun _ _ => breaksIn_ok _
  | loop => exact breaksIn_fetch_bind 0 fun _ _ _ => breaksIn_jumpBack ..
  | _ => exact breaksIn_ok _

end Operators

/-! ## Variables and closures -/

section Instructions

variable (m : Machine World) (f : Frame)

theorem breaksIn_loadGlobal : BreaksIn f.ip (f.ip + 1) (m.loadGlobal f) := by
  refine f.breaksIn_fetchName.bind fun ⟨name, g⟩ hname => ?_
  exact breaksIn_behind (ip_of_fetchName hname) ((breaksIn_expect ..).bind fun _ _ => breaksIn_ok _)

theorem breaksIn_introduceGlobal : BreaksIn f.ip (f.ip + 1) (m.introduceGlobal f) := by
  refine f.breaksIn_fetchName.bind fun ⟨name, g⟩ hname => ?_
  exact breaksIn_behind (ip_of_fetchName hname) (g.breaksIn_pop.bind fun _ _ => breaksIn_ok _)

theorem breaksIn_storeGlobal : BreaksIn f.ip (f.ip + 1) (m.storeGlobal f) := by
  refine f.breaksIn_fetchName.bind fun ⟨name, g⟩ hname => ?_
  exact breaksIn_behind (ip_of_fetchName hname)
    (g.breaksIn_peek.bind fun _ _ => (breaksIn_expect ..).bind fun _ _ => breaksIn_ok _)

theorem breaksIn_loadUpvalue : BreaksIn f.ip (f.ip + 1) (m.loadUpvalue f) :=
  breaksIn_fetch_bind 0 fun _ _ _ => (breaksIn_expect ..).bind fun _ _ => breaksIn_ok _

theorem breaksIn_storeUpvalue : BreaksIn f.ip (f.ip + 1) (m.storeUpvalue f) :=
  breaksIn_fetch_bind 0 fun _ _ _ =>
    (breaksIn_peek _).bind fun _ _ => (breaksIn_expect ..).bind fun _ _ => breaksIn_ok _

theorem breaksIn_retireUpvalue : BreaksIn f.ip f.ip (m.retireUpvalue f) :=
  f.breaksIn_pop.bind fun _ _ => breaksIn_ok _

/-- A capture breaks off within its pair of bytes. -/
theorem breaksIn_takeCell (taken : Taken) :
    BreaksIn f.ip (f.ip + 2) (m.takeCell f taken) := by
  refine breaksIn_fetch_bind 1 fun isLocal g _ => ?_
  refine breaksIn_fetch_bind 0 fun index k _ => ?_
  dsimp only
  split
  · split
    · exact breaksIn_ok _
    · exact (breaksIn_expect ..).bind fun _ _ => breaksIn_ok _
  · exact (breaksIn_expect ..).bind fun _ _ => breaksIn_ok _

theorem breaksIn_takeCells (count : Nat) (taken : Taken) :
    BreaksIn f.ip (f.ip + 2 * count) (takeCells count m f taken) := by
  induction count generalizing m f taken with
  | zero => exact breaksIn_ok _
  | succ count ih =>
    refine ((breaksIn_takeCell m f taken).mono (Nat.le_refl _) (by omega)).bind fun r hr => ?_
    obtain ⟨isLocal, index, hfirst, hsecond, hoffers⟩ := takeCell_ok hr
    rw [takeCell_eq hfirst hsecond hoffers] at hr
    cases hr
    exact (ih ..).mono (Nat.le_add_right _ 2) (Nat.le_of_eq (by
      show f.ip + 2 + 2 * count = _
      omega))

/-- A closure breaks off within the pairs of bytes of the function that it is made of. -/
theorem breaksIn_closeOver {count : Nat}
    (hcount : ∀ g p, f.fetchFunction = .ok (p, g) → count = 1 + 2 * p.captureCount)
    (hpos : 1 ≤ count) : BreaksIn f.ip (f.ip + count) (m.closeOver f) := by
  refine (f.breaksIn_fetchFunction.mono (Nat.le_refl _) (by omega)).bind fun ⟨p, g⟩ hp => ?_
  have heq := hcount g p hp
  obtain ⟨-, -, -, rfl⟩ := fetchFunction_ok hp
  refine ((breaksIn_takeCells m _ _ _).mono (Nat.le_succ f.ip) ?_).bind fun _ _ => breaksIn_ok _
  show f.ip + 1 + 2 * p.captureCount ≤ f.ip + count
  omega

end Instructions

/-! ## Calls -/

section Steps

variable {host : Host World} {m k : Machine World} {f : Frame} {failure : Failure}

theorem failed_of_conclude {attempt : Attempt (Frame × Machine World)}
    (h : m.conclude attempt = .failed failure k) : attempt = .error failure := by
  cases attempt with
  | ok r => cases h
  | error e =>
    cases h
    rfl

theorem failed_of_conclude_map {attempt : Attempt Frame}
    (h : m.conclude (attempt.map fun g => (g, m)) = .failed failure k) :
    attempt = .error failure := by
  cases attempt with
  | ok g => cases h
  | error e =>
    cases h
    rfl

/-- A call breaks off at the place where it is made. -/
theorem ip_of_invoke_failed {base : Nat} {callee : Value}
    (h : m.invoke host f base callee = .failed failure k) : failure.ip = f.ip := by
  have henter : ∀ function cells, m.enter f base function cells = .failed failure k →
      failure.ip = f.ip := by
    intro function cells hentered
    unfold enter at hentered
    split at hentered <;> cases hentered
    rfl
  cases callee with
  | closure c => exact henter _ _ h
  | function g => exact henter _ _ h
  | native n =>
    unfold invoke invokeNative at h
    dsimp only at h
    split at h
    · split at h <;> cases h
      rfl
    · cases h
      rfl
  | _ =>
    cases h
    rfl

theorem ip_of_call_failed (h : m.call host f = .failed failure k) :
    f.ip ≤ failure.ip ∧ failure.ip ≤ f.ip + 1 := by
  unfold call at h
  split at h
  · next hfetch =>
    cases h
    have hin := f.breaksIn_fetch.between _ hfetch
    exact ⟨hin.1, Nat.le_succ_of_le hin.2⟩
  · next hfetch =>
    obtain ⟨-, rfl⟩ := Frame.fetch_ok hfetch
    split at h
    · cases h
      exact ⟨Nat.le_succ _, Nat.le_refl _⟩
    · have hip : failure.ip = f.ip + 1 := ip_of_invoke_failed h
      omega

theorem ip_of_return_failed (h : m.returnFrom f = .failed failure k) : failure.ip = f.ip := by
  unfold returnFrom at h
  split at h
  · next hpop =>
    cases h
    have hin := f.breaksIn_pop.between _ hpop
    exact Nat.le_antisymm hin.2 hin.1
  · dsimp only at h
    split at h <;> cases h

/-! ## Steps -/

/-- An instruction breaks off within its operands. -/
theorem ip_of_carryOut_failed {o : Nat} {op : Opcode} {count : Nat}
    (hcount : f.chunk.operandBytes o op = .ok count) (ho : o + 1 = f.ip)
    (hroom : op = .closure → ∀ p g, f.fetchFunction = .ok (p, g) → 2 * p.captureCount < UInt64.size)
    (h : m.carryOut host f op = .failed failure k) :
    f.ip ≤ failure.ip ∧ failure.ip ≤ f.ip + count := by
  have hplain : op ≠ .closure → count = op.operandBytes := fun hne =>
    Except.ok.inj (hcount.symm.trans (Chunk.operandBytes_of_ne hne rfl))
  cases op with
  | closure =>
    have hpos : 1 ≤ count := by
      unfold Chunk.operandBytes at hcount
      dsimp only at hcount
      repeat' split at hcount
      all_goals cases hcount
      omega
    refine (breaksIn_closeOver m f (fun g p hp => ?_) hpos).between _ (failed_of_conclude h)
    obtain ⟨index, hindex, hfunction, -⟩ := Frame.fetchFunction_ok hp
    rw [← ho] at hindex
    have hcount' := Except.ok.inj (hcount.symm.trans (Chunk.operandBytes_closure hindex hfunction))
    rwa [Nat.mod_eq_of_lt (hroom rfl p g hp)] at hcount'
  | call =>
    obtain rfl := hplain nofun
    exact ip_of_call_failed h
  | «return» =>
    obtain rfl := hplain nofun
    have hip := ip_of_return_failed h
    exact ⟨Nat.le_of_eq hip.symm, Nat.le_of_eq hip⟩
  | getGlobal =>
    obtain rfl := hplain nofun
    exact (breaksIn_loadGlobal m f).between _ (failed_of_conclude h)
  | defineGlobal =>
    obtain rfl := hplain nofun
    exact (breaksIn_introduceGlobal m f).between _ (failed_of_conclude h)
  | setGlobal =>
    obtain rfl := hplain nofun
    exact (breaksIn_storeGlobal m f).between _ (failed_of_conclude h)
  | getUpvalue =>
    obtain rfl := hplain nofun
    exact (breaksIn_loadUpvalue m f).between _ (failed_of_conclude h)
  | setUpvalue =>
    obtain rfl := hplain nofun
    exact (breaksIn_storeUpvalue m f).between _ (failed_of_conclude h)
  | closeUpvalue =>
    obtain rfl := hplain nofun
    exact (breaksIn_retireUpvalue m f).between _ (failed_of_conclude h)
  | nil => cases h
  | «true» => cases h
  | «false» => cases h
  | _ =>
    obtain rfl := hplain nofun
    exact (breaksIn_runLocal f _).between _ (failed_of_conclude_map h)

/-- An instruction that fails breaks off behind its opcode and within its own bytes,
whatever the code around it is, as long as a word can count these bytes. -/
theorem breaks_within_instruction {i : Instruction} (hdecode : f.chunk.decode f.ip = .ok i)
    (hroom : 2 * roomAskedFor f < UInt64.size) (h : m.step host f = .failed failure k) :
    f.ip < failure.ip ∧ failure.ip ≤ f.ip + i.size := by
  obtain ⟨hop, -, hcount, -⟩ := Chunk.exists_of_decode hdecode
  rw [step_eq hop] at h
  have hfew : i.op = .closure → ∀ p g, (behindOpcode f).fetchFunction = .ok (p, g) →
      2 * p.captureCount < UInt64.size := fun hclosure p g hp => by
    obtain ⟨_, hbyte, hfunction, -⟩ := Frame.fetchFunction_ok hp
    rwa [roomAskedFor_closure (hclosure ▸ hop) hbyte hfunction] at hroom
  have hbreaks := ip_of_carryOut_failed (f := behindOpcode f) hcount rfl hfew h
  show f.ip + 1 ≤ failure.ip ∧ failure.ip ≤ f.ip + (i.operands.length + 1)
  have hip : (behindOpcode f).ip = f.ip + 1 := rfl
  omega

end Steps

end Machine

end ScriptEngine
