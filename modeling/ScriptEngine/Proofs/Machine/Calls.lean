import ScriptEngine.Proofs.Machine.OpenCells
import ScriptEngine.Proofs.Machine.Reach
import ScriptEngine.Proofs.Machine.Reading
set_option autoImplicit false

/-!
# Machine: calls leave their callers alone

Whatever code runs, a step stays in its frame, enters a function or returns to the
frame that waits (`Passage`).  Within a frame only the open cells of that frame come
and go, so that from a call up to the return that belongs to it the suspended frames
and their open cells stay as they were (`caller_untouched`).
-/

namespace ScriptEngine

open Machine

variable {World : Type}

/-! ## What a step does to the calls -/

/-- The frames that wait are the same, and so are their open cells. -/
structure Machine.Spares (m m' : Machine World) : Prop where
  callers : m'.callers = m.callers
  sorted : m.openCells.Sorted → m'.openCells.Sorted
  others : m.openCells.Sorted → ∀ e : OpenCell, e.place.depth ≠ m.depth →
    (e ∈ m'.openCells ↔ e ∈ m.openCells)
  inside : m.openCells.Sorted → ∀ e ∈ m'.openCells, e ∈ m.openCells ∨ e.place.depth = m.depth

/-- What a step can do to the calls, whatever code it belongs to. -/
inductive Machine.Passage (m : Machine World) (f : Frame) : Frame → Machine World → Prop where
  | within {g : Frame} {m' : Machine World} (function : g.function = f.function)
      (spares : m.Spares m') : Passage m f g m'
  /-- The slots from `base` on are those of the callee from now on. -/
  | enters {argc : UInt8} {base : Nat} {callee : Frame} {m' : Machine World}
      (operand : f.chunk.code[f.ip + 1]? = some argc)
      (size : base + (argc.toNat + 1) = f.slots.size)
      (called : f.slots[base]?.bind Value.code? = some (callee.function, callee.cells))
      (arity : callee.function.arity = argc.toNat) (start : callee.ip = 0)
      (slots : callee.slots = f.slots.extract base f.slots.size)
      (callers : m'.callers = f.goTo (f.ip + 2) (f.slots.take base) :: m.callers)
      (openCells : m'.openCells = m.openCells) : Passage m f callee m'
  | returns {caller : Frame} {v : Value} {m' : Machine World}
      (op : f.nextOpcode? = some .return) (value : f.slots.back? = some v)
      (callers : m.callers = caller :: m'.callers)
      (openCells : m'.openCells = m.openCells.below m.depth) : Passage m f (caller.push v) m'

section Passages

variable {host : Host World} {m m' m'' : Machine World} {f g : Frame}

theorem Machine.Spares.of_eq (hcallers : m'.callers = m.callers)
    (hopen : m'.openCells = m.openCells) : m.Spares m' where
  callers := hcallers
  sorted h := hopen ▸ h
  others _ _ _ := by rw [hopen]
  inside _ _ he := .inl (hopen ▸ he)

theorem Machine.Spares.trans (h : m.Spares m') (k : m'.Spares m'') : m.Spares m'' where
  callers := k.callers.trans h.callers
  sorted hs := k.sorted (h.sorted hs)
  others hs e he :=
    have hdepth : m'.depth = m.depth := congrArg List.length h.callers
    (k.others (h.sorted hs) e (hdepth ▸ he)).trans (h.others hs e he)
  inside hs e he := by
    have hdepth : m'.depth = m.depth := congrArg List.length h.callers
    rcases k.inside (h.sorted hs) e he with hold | hown
    · exact h.inside hs e hold
    · exact .inr (hown.trans hdepth)

/-- Only an entry of the frame that runs is given up. -/
theorem Machine.spares_erase (m : Machine World) (slot : Nat) :
    m.Spares { m with openCells := m.openCells.erase ⟨m.depth, slot⟩ } where
  callers := rfl
  sorted h := h.erase _
  others h e he := by
    rw [OpenCells.mem_erase h]
    exact and_iff_left fun hplace => he (congrArg SlotPlace.depth hplace)
  inside h _ he := .inl ((OpenCells.mem_erase h).mp he).1

/-- A cell is only opened for a slot of the frame that runs. -/
theorem Machine.spares_cellFor (m : Machine World) (slot : Nat) (v : Value) :
    m.Spares (m.cellFor slot v).2 := by
  unfold cellFor
  dsimp only
  split
  · exact .of_eq rfl rfl
  · next hfind =>
    have hnone := fun h : m.openCells.Sorted => (OpenCells.find_eq_none_iff h).mp hfind
    refine ⟨rfl, fun h => h.insert (hnone h) _, fun h e he => ?_, fun h e he => ?_⟩
    · refine (OpenCells.mem_insert (hnone h)).trans (or_iff_right ?_)
      rintro rfl
      exact he rfl
    · rcases (OpenCells.mem_insert (hnone h)).mp he with rfl | hold
      · exact .inr rfl
      · exact .inl hold

theorem spares_takeCell {taken taken' : Taken}
    (h : m.takeCell f taken = .ok (taken', g, m')) : m.Spares m' := by
  obtain ⟨⟨isLocal, f₁⟩, -, hrest⟩ := Attempt.exists_of_bind h
  obtain ⟨⟨index, f₂⟩, -, hrest⟩ := Attempt.exists_of_bind hrest
  dsimp only at hrest
  split at hrest
  · split at hrest
    · cases hrest
      exact m.spares_cellFor _ _
    · obtain ⟨v, -, hlast⟩ := Attempt.exists_of_bind hrest
      cases hlast
      exact m.spares_cellFor _ _
  · obtain ⟨cell, -, hlast⟩ := Attempt.exists_of_bind hrest
    cases hlast
    exact .of_eq rfl rfl

theorem spares_takeCells {count : Nat} {m m' : Machine World} {f g : Frame}
    {taken taken' : Taken} (h : takeCells count m f taken = .ok (taken', g, m')) :
    m.Spares m' := by
  induction count generalizing m f taken with
  | zero =>
    cases h
    exact .of_eq rfl rfl
  | succ count ih =>
    obtain ⟨⟨taken₁, f₁, m₁⟩, hone, hrest⟩ := Attempt.exists_of_bind h
    exact (spares_takeCell hone).trans (ih hrest)

theorem spares_closeOver (h : m.closeOver f = .ok (g, m')) : m.Spares m' := by
  obtain ⟨⟨function, f₁⟩, -, hrest⟩ := Attempt.exists_of_bind h
  obtain ⟨⟨taken, f₂, m₁⟩, htake, hlast⟩ := Attempt.exists_of_bind hrest
  cases hlast
  exact (spares_takeCells htake).trans (.of_eq rfl rfl)

/-- A call enters a function or is answered by the host. -/
theorem passage_invoke {argc : UInt8} {base : Nat} {callee : Value}
    (hargc : f.chunk.code[f.ip + 1]? = some argc)
    (hbase : base + (argc.toNat + 1) = f.slots.size) (hcallee : f.slots[base]? = some callee)
    (h : m.invoke host (f.goTo (f.ip + 2) f.slots) base callee = .running g m') :
    m.Passage f g m' := by
  have hcount : argumentCount (f.goTo (f.ip + 2) f.slots) base = argc.toNat := by
    show f.slots.size - (base + 1) = argc.toNat
    omega
  have henter : ∀ (function : Function Value) (cells : Array Cell),
      callee.code? = some (function, cells) →
      m.enter (f.goTo (f.ip + 2) f.slots) base function cells = .running g m' →
      m.Passage f g m' := by
    intro function cells hcode hentered
    unfold enter at hentered
    split at hentered
    · next harity =>
      cases hentered
      have hcalled : f.slots[base]?.bind Value.code? = some (function, cells) := by
        rw [hcallee]
        exact hcode
      exact .enters hargc hbase hcalled (harity.trans hcount) rfl rfl rfl rfl
    · cases hentered
  cases callee with
  | closure c => exact henter _ _ rfl h
  | function p => exact henter _ _ rfl h
  | native n =>
    unfold invoke invokeNative at h
    dsimp only at h
    split at h
    · split at h
      · cases h
        exact .within rfl (.of_eq rfl rfl)
      · cases h
    · cases h
  | _ => cases h

/-- No instruction but calls and returns goes on in another function. -/
theorem function_of_step {op : Opcode} (hop : f.chunk.code[f.ip]? = some op.toByte)
    (h : m.step host f = .running g m') (hcall : op ≠ .call) (hreturn : op ≠ .return) :
    g.function = f.function := by
  obtain ⟨operands, -, -, hfollows⟩ := exists_carriesOut hop (Progress.not_hasFailed h)
  have hnext := hfollows 0
  rw [h] at hnext
  cases hnext with
  | entered op => exact absurd op hcall
  | resumed op => exact absurd op hreturn
  | _ => rfl

/-- A step that goes on stays in its frame, enters a function or returns. -/
theorem passage_of_step (h : m.step host f = .running g m') : m.Passage f g m' := by
  obtain ⟨op, hop⟩ := exists_opcode (Progress.not_hasFailed h)
  have hcarry : m.carryOut host (behindOpcode f) op = .running g m' := (step_eq hop).symm.trans h
  have hwide : ∀ attempt : Attempt (Frame × Machine World),
      m.conclude attempt = .running g m' → attempt = .ok (g, m') := by
    intro attempt hattempt
    cases attempt with
    | ok r =>
      cases hattempt
      rfl
    | error failure => cases hattempt
  have hsame : op ≠ .call → op ≠ .return → g.function = f.function :=
    function_of_step hop h
  have hlocal : op ≠ .call → op ≠ .return → ∀ attempt : Attempt Frame,
      m.conclude (attempt.map fun g => (g, m)) = .running g m' → m.Passage f g m' := by
    intro hcall hreturn attempt hattempt
    obtain ⟨f', -, hpair⟩ := Attempt.exists_of_map (hwide _ hattempt)
    cases hpair
    exact .within (hsame hcall hreturn) (.of_eq rfl rfl)
  cases op with
  | getGlobal =>
    obtain ⟨⟨name, f₁⟩, -, hrest⟩ := Attempt.exists_of_bind (hwide _ hcarry)
    obtain ⟨v, -, hlast⟩ := Attempt.exists_of_bind hrest
    cases hlast
    exact .within (hsame nofun nofun) (.of_eq rfl rfl)
  | defineGlobal =>
    obtain ⟨⟨name, f₁⟩, -, hrest⟩ := Attempt.exists_of_bind (hwide _ hcarry)
    obtain ⟨⟨v, f₂⟩, -, hlast⟩ := Attempt.exists_of_bind hrest
    cases hlast
    exact .within (hsame nofun nofun) (.of_eq rfl rfl)
  | setGlobal =>
    obtain ⟨⟨name, f₁⟩, -, hrest⟩ := Attempt.exists_of_bind (hwide _ hcarry)
    obtain ⟨v, -, hrest⟩ := Attempt.exists_of_bind hrest
    obtain ⟨globals, -, hlast⟩ := Attempt.exists_of_bind hrest
    cases hlast
    exact .within (hsame nofun nofun) (.of_eq rfl rfl)
  | getUpvalue =>
    obtain ⟨⟨k, f₁⟩, -, hrest⟩ := Attempt.exists_of_bind (hwide _ hcarry)
    obtain ⟨cell, -, hlast⟩ := Attempt.exists_of_bind hrest
    cases hlast
    exact .within (hsame nofun nofun) (.of_eq rfl rfl)
  | setUpvalue =>
    obtain ⟨⟨k, f₁⟩, -, hrest⟩ := Attempt.exists_of_bind (hwide _ hcarry)
    obtain ⟨v, -, hrest⟩ := Attempt.exists_of_bind hrest
    obtain ⟨cell, -, hlast⟩ := Attempt.exists_of_bind hrest
    cases hlast
    exact .within (hsame nofun nofun) (.of_eq rfl rfl)
  | closeUpvalue =>
    obtain ⟨⟨v, f₁⟩, -, hlast⟩ := Attempt.exists_of_bind (hwide _ hcarry)
    cases hlast
    exact .within (hsame nofun nofun) (m.spares_erase _)
  | closure => exact .within (hsame nofun nofun) (spares_closeOver (hwide _ hcarry))
  | call =>
    unfold carryOut call at hcarry
    dsimp only at hcarry
    split at hcarry
    · cases hcarry
    · next argc f₁ hfetch =>
      obtain ⟨hargc, rfl⟩ := Frame.fetch_ok hfetch
      split at hcarry
      · cases hcarry
      · next hsize =>
        have hlt : argc.toNat < f.slots.size := Nat.not_le.mp hsize
        have hbase : f.slots.size - (argc.toNat + 1) < f.slots.size := by omega
        have hcallee := Array.getElem?_eq_getElem hbase
        have hinvoked : m.invoke host (f.goTo (f.ip + 2) f.slots)
            (f.slots.size - (argc.toNat + 1))
            (f.slots[f.slots.size - (argc.toNat + 1)]?.getD .nil) = .running g m' := hcarry
        rw [hcallee] at hinvoked
        exact passage_invoke hargc (by omega) hcallee hinvoked
  | «return» =>
    unfold carryOut returnFrom at hcarry
    dsimp only at hcarry
    split at hcarry
    · cases hcarry
    · next v f₁ hpop =>
      have hcallers : m.closeFrame.callers = m.callers := by
        unfold closeFrame
        split <;> rfl
      have hnext : f.nextOpcode? = some .return := nextOpcode_eq (holds_op hop)
      split at hcarry
      · next caller callers hwaiting =>
        cases hcarry
        exact .returns hnext (Frame.pop_ok hpop).1 (hcallers.symm.trans hwaiting)
          m.openCells_closeFrame
      · cases hcarry
  | nil => exact hlocal nofun nofun (runLocal .nil (behindOpcode f)) hcarry
  | «true» => exact hlocal nofun nofun (runLocal .true (behindOpcode f)) hcarry
  | «false» => exact hlocal nofun nofun (runLocal .false (behindOpcode f)) hcarry
  | _ => exact hlocal nofun nofun _ hcarry

end Passages

/-! ## Nested calls -/

/-- The open cells are in order, and each is that of a frame that has not returned. -/
structure Machine.IsNested (m : Machine World) : Prop where
  sorted : m.openCells.Sorted
  live : ∀ e ∈ m.openCells, e.place.depth ≤ m.depth

/-- The machine `k` is within a call that the frame `caller` made in the machine `m`. -/
structure Machine.Awaits (m : Machine World) (caller : Frame) (k : Machine World) : Prop where
  callers : ∃ inner, k.callers = inner ++ caller :: m.callers
  entries : ∀ e : OpenCell, e.place.depth ≤ m.depth → (e ∈ k.openCells ↔ e ∈ m.openCells)

section Nesting

variable {host : Host World} {m k k' : Machine World} {f g g' caller : Frame}

theorem Machine.isNested_idle (hcallers : m.openCells = #[]) : m.IsNested where
  sorted := hcallers ▸ OpenCells.sorted_empty
  live e he := absurd (hcallers ▸ he) (Array.not_mem_empty e)

theorem Machine.Passage.isNested (h : k.Passage g g' k') (hk : k.IsNested) : k'.IsNested := by
  cases h with
  | within _ spares =>
    have hdepth : k'.depth = k.depth := congrArg List.length spares.callers
    refine ⟨spares.sorted hk.sorted, fun e he => hdepth ▸ ?_⟩
    rcases spares.inside hk.sorted e he with hold | hown
    · exact hk.live e hold
    · exact Nat.le_of_eq hown
  | enters _ _ _ _ _ _ callers openCells =>
    have hdepth : k'.depth = k.depth + 1 := congrArg List.length callers
    exact ⟨openCells ▸ hk.sorted, fun e he =>
      hdepth ▸ Nat.le_succ_of_le (hk.live e (openCells ▸ he))⟩
  | returns _ _ callers openCells =>
    have hdepth : k.depth = k'.depth + 1 := congrArg List.length callers
    refine ⟨openCells ▸ hk.sorted.below _, fun e he => ?_⟩
    have hbelow := ((OpenCells.mem_below hk.sorted).mp (openCells ▸ he)).2
    omega

/-- At every moment of a run the open cells are in order. -/
theorem isNested_of_unfinished (hm : m.IsNested) {n : Nat}
    (h : ending host n m f = .unfinished g k) : k.IsNested := by
  induction n generalizing g k with
  | zero =>
    cases h
    exact hm
  | succ n ih =>
    obtain ⟨g₀, k₀, hbefore, hstep⟩ := ending_succ_eq_unfinished_iff.mp h
    exact (passage_of_step hstep).isNested (ih hbefore)

/-- Within a call, a step that does not come back to the caller leaves it alone. -/
theorem Machine.Passage.awaits (h : k.Passage g g' k') (hk : k.IsNested)
    (hwaits : m.Awaits caller k) (hdeeper : m.depth < k'.depth) : m.Awaits caller k' := by
  obtain ⟨inner, hinner⟩ := hwaits.callers
  have hdepth : k.depth = inner.length + (m.depth + 1) := by
    show k.callers.length = _
    rw [hinner, List.length_append]
    rfl
  cases h with
  | within _ spares =>
    refine ⟨⟨inner, spares.callers.trans hinner⟩, fun e he => ?_⟩
    exact (spares.others hk.sorted e (by omega)).trans (hwaits.entries e he)
  | enters _ _ _ _ _ _ callers openCells =>
    refine ⟨⟨_ :: inner, by rw [callers, hinner]; rfl⟩, fun e he => ?_⟩
    rw [openCells]
    exact hwaits.entries e he
  | @returns first _ _ _ _ callers openCells =>
    rw [callers] at hinner
    have hback : k.depth = k'.depth + 1 := congrArg List.length callers
    cases inner with
    | nil =>
      rw [List.length_nil] at hdepth
      omega
    | cons top inner =>
      refine ⟨⟨inner, (List.cons.inj hinner).2⟩, fun e he => ?_⟩
      rw [openCells, OpenCells.mem_below hk.sorted, and_iff_left (by omega)]
      exact hwaits.entries e he

/-- Tables in order with the same entries are the same. -/
theorem OpenCells.Sorted.eq_of_mem_iff {o o' : OpenCells} (h : o.Sorted) (h' : o'.Sorted)
    (hmem : ∀ e, e ∈ o ↔ e ∈ o') : o = o' := by
  have hnodup : ∀ {o : OpenCells}, o.Sorted → o.toList.Nodup := fun h =>
    h.imp fun hbefore heq => hbefore.ne (congrArg OpenCell.place heq)
  have hperm : o.toList.Perm o'.toList :=
    (List.perm_ext_iff_of_nodup (hnodup h) (hnodup h')).mpr fun e => by
      rw [Array.mem_toList_iff, Array.mem_toList_iff]
      exact hmem e
  refine Array.toList_inj.mp (hperm.eq_of_pairwise (fun a b _ _ hab hba => ?_) h h')
  exact absurd (hab.trans hba) (SlotPlace.not_before_self _)

/-- The step that comes back to the caller is a return, which leaves nothing of the call
but its value. -/
theorem Machine.Passage.comesBack (h : k.Passage g g' k') (hm : m.IsNested) (hk : k.IsNested)
    (hwaits : m.Awaits caller k) (hback : k'.depth = m.depth) :
    ∃ v, g.nextOpcode? = some .return ∧ g.slots.back? = some v ∧ g' = caller.push v ∧
      k'.callers = m.callers ∧ k'.openCells = m.openCells := by
  obtain ⟨inner, hinner⟩ := hwaits.callers
  have hdepth : k.depth = inner.length + (m.depth + 1) := by
    show k.callers.length = _
    rw [hinner, List.length_append]
    rfl
  cases h with
  | within _ spares =>
    have hsame : k'.depth = k.depth := congrArg List.length spares.callers
    omega
  | enters _ _ _ _ _ _ callers =>
    have hsame : k'.depth = k.depth + 1 := congrArg List.length callers
    omega
  | @returns first v _ op value callers openCells =>
    have hsame : k.depth = k'.depth + 1 := congrArg List.length callers
    have hnil : inner = [] := List.length_eq_zero_iff.mp (by omega)
    subst hnil
    obtain ⟨rfl, hcallers⟩ := List.cons.inj (callers.symm.trans hinner)
    refine ⟨v, op, value, rfl, hcallers, ?_⟩
    rw [openCells]
    refine (hk.sorted.below _).eq_of_mem_iff hm.sorted fun e => ?_
    rw [OpenCells.mem_below hk.sorted]
    constructor
    · rintro ⟨he, hlt⟩
      exact (hwaits.entries e (by omega)).mp he
    · intro he
      have hle := hm.live e he
      exact ⟨(hwaits.entries e hle).mpr he, by omega⟩

/-- As long as no step comes back to it, the caller waits. -/
theorem awaits_of_unfinished (hk : k.IsNested) (hwaits : m.Awaits caller k) {n : Nat}
    (h : ending host n k g = .unfinished g' k')
    (hdeeper : ∀ i ≤ n, ∀ gᵢ kᵢ, ending host i k g = .unfinished gᵢ kᵢ → m.depth < kᵢ.depth) :
    m.Awaits caller k' := by
  induction n generalizing g' k' with
  | zero =>
    cases h
    exact hwaits
  | succ n ih =>
    obtain ⟨g₀, k₀, hbefore, hstep⟩ := ending_succ_eq_unfinished_iff.mp h
    have hwaits₀ := ih hbefore fun i hi => hdeeper i (Nat.le_succ_of_le hi)
    exact (passage_of_step hstep).awaits (isNested_of_unfinished hk hbefore) hwaits₀
      (hdeeper (n + 1) (Nat.le_refl _) _ _ h)

end Nesting

/-! ## Calls -/

/-- The frame `f` has called `callee` and is left alone until the call returns. -/
structure Machine.CallIsFramed (host : Host World) (m : Machine World) (f : Frame)
    (m' : Machine World) (callee : Frame) (argc : UInt8) : Prop where
  operand : f.chunk.code[f.ip + 1]? = some argc
  enough : argc.toNat < f.slots.size
  /-- The callee is what stands below the arguments, and takes as many as there are. -/
  called : f.slots[f.slots.size - (argc.toNat + 1)]?.bind Value.code? =
    some (callee.function, callee.cells)
  arity : callee.function.arity = argc.toNat
  start : callee.ip = 0
  slots : callee.slots = f.slots.extract (f.slots.size - (argc.toNat + 1)) f.slots.size
  /-- The first time that no more frames wait than before the call, the caller is behind
  its call and has the value that was returned in the place of callee and arguments. -/
  resumed : ∀ n g k, ending host n m' callee = .unfinished g k → k.depth = m.depth →
    (∀ i < n, ∀ gᵢ kᵢ, ending host i m' callee = .unfinished gᵢ kᵢ → m.depth < kᵢ.depth) →
    ∃ (last : Frame) (before : Machine World) (v : Value),
      ending host (n - 1) m' callee = .unfinished last before ∧
      last.nextOpcode? = some .return ∧ last.slots.back? = some v ∧
      g = f.goTo (f.ip + 2) ((f.slots.take (f.slots.size - (argc.toNat + 1))).push v) ∧
      k.callers = m.callers ∧ k.openCells = m.openCells ∧
      ∀ e ∈ k.openCells, e.place.depth ≤ m.depth

/-- Whatever code it runs and whatever the calls in it do, a call leaves its caller as it
was, but for the value that it returns. -/
theorem caller_untouched {host : Host World} {start : Machine World}
    (hopen : start.openCells = #[]) {script : Function Value} {n : Nat} {f : Frame}
    {m : Machine World}
    (hreached : ending host n start (scriptFrame script) = .unfinished f m)
    {callee : Frame} {m' : Machine World} (hcall : f.nextOpcode? = some .call)
    (hstep : m.step host f = .running callee m') (hdeeper : m.depth < m'.depth) :
    ∃ argc, m.CallIsFramed host f m' callee argc := by
  have hm : m.IsNested := isNested_of_unfinished (isNested_idle hopen) hreached
  have hpassage := passage_of_step hstep
  have hm' := hpassage.isNested hm
  cases hpassage with
  | within _ spares =>
    have hsame : m'.depth = m.depth := congrArg List.length spares.callers
    omega
  | returns op => cases op.symm.trans hcall
  | @enters argc base _ _ operand size called arity start slots callers openCells =>
    obtain rfl : base = f.slots.size - (argc.toNat + 1) := by omega
    have hwaits : m.Awaits (f.goTo (f.ip + 2)
        (f.slots.take (f.slots.size - (argc.toNat + 1)))) m' :=
      ⟨⟨[], callers⟩, fun e _ => by rw [openCells]⟩
    refine ⟨argc, operand, by omega, called, arity, start, slots, ?_⟩
    intro n g k hend hback hbefore
    cases n with
    | zero =>
      cases hend
      omega
    | succ n =>
      obtain ⟨last, before, hlast, hreturn⟩ := ending_succ_eq_unfinished_iff.mp hend
      have hwaiting := awaits_of_unfinished hm' hwaits hlast fun i hi =>
        hbefore i (Nat.lt_succ_of_le hi)
      obtain ⟨v, hop, hv, rfl, hcallers, hcells⟩ := (passage_of_step hreturn).comesBack hm
        (isNested_of_unfinished hm' hlast) hwaiting hback
      exact ⟨last, before, v, hlast, hop, hv, rfl, hcallers, hcells,
        fun e he => hm.live e (hcells ▸ he)⟩

/-- A function of one parameter that gives a closure which captures the parameter. -/
def capturer : Function Value :=
  ⟨1, some "capturer", 1, 0, ⟨#[26, 0, 1, 1, 27], #[1, 1, 1, 1, 1],
    #[.function ⟨0, some "inner", 0, 1, ⟨#[10, 0, 27], #[1, 1, 1], #[]⟩⟩]⟩⟩

/-- A script that calls `capturer` with `true`, above a value of its own. -/
def callingCapturer : Function Value :=
  ⟨2, none, 0, 0, ⟨#[1, 0, 0, 2, 25, 1, 27], #[1, 1, 1, 1, 1, 1, 1], #[.function capturer]⟩⟩

/-- The value below the callee, and the frame of the script with it, outlast the call. -/
theorem caller_untouched_capturer :
    ∃ argc, Machine.CallIsFramed Console.host { world := {} }
      ⟨callingCapturer, #[], 4,
        #[.function callingCapturer, .nil, .function capturer, .boolean true]⟩
      { callers := [⟨callingCapturer, #[], 6, #[.function callingCapturer, .nil]⟩], world := {} }
      ⟨capturer, #[], 0, #[.function capturer, .boolean true]⟩ argc := by
  have hreached : ending Console.host 3 { world := {} } (scriptFrame callingCapturer) =
      .unfinished ⟨callingCapturer, #[], 4,
        #[.function callingCapturer, .nil, .function capturer, .boolean true]⟩
        { world := {} } := rfl
  exact caller_untouched rfl hreached rfl rfl Nat.one_pos

end ScriptEngine
