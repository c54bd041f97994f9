import ScriptEngine.Proofs.Joined.Relocation
import ScriptEngine.Proofs.Machine.Abreast
set_option autoImplicit false

/-!
# Two sources on one another: runs of moved code

A step does nothing with the frames that wait, except that it may go on in the first of them.
So once the code of the outermost frame stands in another place, a run leads to the same ending
as before, as far as a program can tell (`Relocates.ending_aligned`); and if control is about to
leave the code that was moved, it is about to do so in both places (`Relocates.reaches`).
-/

namespace ScriptEngine

open Compile Machine

variable {World : Type}

/-! ## Other frames that wait -/

/-- The machine with other frames waiting. -/
def Machine.withCallers (m : Machine World) (fs : List Frame) : Machine World :=
  { m with callers := fs }

/-- A frame with a machine, and the same with other frames waiting. -/
def WaitAlike (fs fs' : List Frame) (p p' : Frame × Machine World) : Prop :=
  ∃ (g : Frame) (m : Machine World), p = (g, m.withCallers fs) ∧ p' = (g, m.withCallers fs')

/-- The same step, made while different frames wait. -/
inductive Progress.SameButCallers (fs fs' : List Frame) :
    Progress World → Progress World → Prop where
  | within (g : Frame) (m : Machine World) :
      SameButCallers fs fs' (.running g (m.withCallers fs)) (.running g (m.withCallers fs'))
  | enters (g c : Frame) (m : Machine World) :
      SameButCallers fs fs' (.running g (m.withCallers (c :: fs)))
        (.running g (m.withCallers (c :: fs')))
  | returns {b b' : Frame} {rest rest' : List Frame} (v : Value) (m : Machine World)
      (left : fs = b :: rest) (right : fs' = b' :: rest') :
      SameButCallers fs fs' (.running (b.push v) (m.withCallers rest))
        (.running (b'.push v) (m.withCallers rest'))
  | finished (v : Value) (m : Machine World) (left : fs = []) (right : fs' = []) :
      SameButCallers fs fs' (.finished v m) (.finished v m)
  | failed (failure : Failure) (m : Machine World) :
      SameButCallers fs fs' (.failed failure (m.withCallers fs))
        (.failed failure (m.withCallers fs'))

theorem EndAlike.same {ε α γ δ : Type} {T : γ → δ → Prop} (x : Except ε α) {k : α → Except ε γ}
    {l : α → Except ε δ} (h : ∀ a, EndAlike T (k a) (l a)) : EndAlike T (x >>= k) (x >>= l) := by
  cases x with
  | ok a => exact h a
  | error e => exact .error e

section Waiting

variable {fs fs' : List Frame} (m : Machine World) (f : Frame)

theorem depth_withCallers (hlen : fs'.length = fs.length) :
    (m.withCallers fs').depth = (m.withCallers fs).depth := hlen

theorem loadGlobal_withCallers : EndAlike (WaitAlike fs fs')
    ((m.withCallers fs).loadGlobal f) ((m.withCallers fs').loadGlobal f) :=
  .same f.fetchName fun (name, g) =>
    .same (g.expect (.undefinedVariable name) (m.globals.get? name)) fun v =>
      .ok ⟨g.push v, m, rfl, rfl⟩

theorem introduceGlobal_withCallers : EndAlike (WaitAlike fs fs')
    ((m.withCallers fs).introduceGlobal f) ((m.withCallers fs').introduceGlobal f) :=
  .same f.fetchName fun (name, g) => .same g.pop fun (v, g) =>
    .ok ⟨g, { m with globals := m.globals.define name v }, rfl, rfl⟩

theorem storeGlobal_withCallers : EndAlike (WaitAlike fs fs')
    ((m.withCallers fs).storeGlobal f) ((m.withCallers fs').storeGlobal f) :=
  .same f.fetchName fun (name, g) => .same g.peek fun v =>
    .same (g.expect (.undefinedVariable name) (m.globals.assign? name v)) fun globals =>
      .ok ⟨g, { m with globals }, rfl, rfl⟩

theorem loadUpvalue_withCallers : EndAlike (WaitAlike fs fs')
    ((m.withCallers fs).loadUpvalue f) ((m.withCallers fs').loadUpvalue f) :=
  .same f.fetch fun (index, g) => .same (g.capturedCell index.toNat) fun cell =>
    .ok ⟨g.push (m.store.read cell), m, rfl, rfl⟩

theorem storeUpvalue_withCallers : EndAlike (WaitAlike fs fs')
    ((m.withCallers fs).storeUpvalue f) ((m.withCallers fs').storeUpvalue f) :=
  .same f.fetch fun (index, g) => .same g.peek fun v =>
    .same (g.capturedCell index.toNat) fun cell =>
      .ok ⟨g, { m with store := m.store.write cell v }, rfl, rfl⟩

theorem retireUpvalue_withCallers (hlen : fs'.length = fs.length) :
    EndAlike (WaitAlike fs fs') ((m.withCallers fs).retireUpvalue f)
      ((m.withCallers fs').retireUpvalue f) :=
  .same f.pop fun (_, g) => .ok
    ⟨g, { m with openCells := m.openCells.erase ⟨fs.length, g.slots.size⟩ }, rfl, by
      rw [← hlen]
      rfl⟩

/-- The cell for a slot is the same, whoever waits. -/
theorem cellFor_withCallers (hlen : fs'.length = fs.length) (slot : Nat) (v : Value) :
    ∃ (cell : Cell) (k : Machine World),
      (m.withCallers fs).cellFor slot v = (cell, k.withCallers fs) ∧
      (m.withCallers fs').cellFor slot v = (cell, k.withCallers fs') := by
  unfold cellFor
  dsimp only
  rw [depth_withCallers m hlen, show (m.withCallers fs').openCells = (m.withCallers fs).openCells
    from rfl]
  split
  · next cell _ => exact ⟨cell, m, rfl, rfl⟩
  · exact ⟨(m.store.alloc v).1, { m with
      store := (m.store.alloc v).2
      openCells := m.openCells.insert ⟨(m.withCallers fs).depth, slot⟩ (m.store.alloc v).1 },
      rfl, rfl⟩

/-- What cells have been taken, with a frame and a machine, and the same with other frames
waiting. -/
def TakenWaitAlike (fs fs' : List Frame) (p p' : Taken × Frame × Machine World) : Prop :=
  ∃ (taken : Taken) (g : Frame) (m : Machine World), p = (taken, g, m.withCallers fs) ∧
    p' = (taken, g, m.withCallers fs')

theorem takeCell_withCallers (hlen : fs'.length = fs.length) (taken : Taken) :
    EndAlike (TakenWaitAlike fs fs') ((m.withCallers fs).takeCell f taken)
      ((m.withCallers fs').takeCell f taken) := by
  refine .same f.fetch fun (isLocal, g) => .same g.fetch fun (index, g) => ?_
  dsimp only
  split
  · split
    · obtain ⟨cell, k, hleft, hright⟩ := cellFor_withCallers m hlen index.toNat .nil
      rw [hleft, hright]
      exact .ok ⟨_, g, k, rfl, rfl⟩
    · refine .same (g.slot index.toNat) fun v => ?_
      obtain ⟨cell, k, hleft, hright⟩ := cellFor_withCallers m hlen index.toNat v
      rw [hleft, hright]
      exact .ok ⟨_, g, k, rfl, rfl⟩
  · exact .same (g.capturedCell index.toNat) fun cell => .ok ⟨_, g, m, rfl, rfl⟩

theorem takeCells_withCallers (hlen : fs'.length = fs.length) (count : Nat) (m : Machine World)
    (f : Frame) (taken : Taken) :
    EndAlike (TakenWaitAlike fs fs') (takeCells count (m.withCallers fs) f taken)
      (takeCells count (m.withCallers fs') f taken) := by
  induction count generalizing m f taken with
  | zero => exact .ok ⟨taken, f, m, rfl, rfl⟩
  | succ count ih =>
    refine (takeCell_withCallers m f hlen taken).bind ?_
    rintro _ _ ⟨taken', g, k, rfl, rfl⟩
    exact ih k g taken'

theorem closeOver_withCallers (hlen : fs'.length = fs.length) :
    EndAlike (WaitAlike fs fs') ((m.withCallers fs).closeOver f)
      ((m.withCallers fs').closeOver f) := by
  refine .same f.fetchFunction fun (function, g) => ?_
  refine (takeCells_withCallers hlen function.captureCount m g {}).bind ?_
  rintro _ _ ⟨taken, g', k, rfl, rfl⟩
  exact .ok ⟨_, { k with
    store := fill k.store.freshId.2 taken.own (.closure ⟨k.store.nextId, function, taken.cells⟩) },
    rfl, rfl⟩

theorem conclude_withCallers {x y : Attempt (Frame × Machine World)}
    (h : EndAlike (WaitAlike fs fs') x y) :
    ((m.withCallers fs).conclude x).SameButCallers fs fs' ((m.withCallers fs').conclude y) := by
  cases h with
  | ok hpair =>
    obtain ⟨g, k, rfl, rfl⟩ := hpair
    exact .within g k
  | error failure => exact .failed failure m

theorem enter_withCallers (base : Nat) (function : Function Value) (cells : Array Cell) :
    ((m.withCallers fs).enter f base function cells).SameButCallers fs fs'
      ((m.withCallers fs').enter f base function cells) := by
  unfold enter
  split
  · exact .enters _ _ m
  · exact .failed _ m

theorem invoke_withCallers (host : Host World) (base : Nat) (callee : Value) :
    ((m.withCallers fs).invoke host f base callee).SameButCallers fs fs'
      ((m.withCallers fs').invoke host f base callee) := by
  cases callee with
  | closure c => exact enter_withCallers m f base c.function c.cells
  | function g => exact enter_withCallers m f base g #[]
  | native n =>
    unfold invoke
    dsimp only
    split
    · unfold invokeNative
      dsimp only
      rw [show (m.withCallers fs').store = (m.withCallers fs).store from rfl,
        show (m.withCallers fs').world = (m.withCallers fs).world from rfl]
      generalize host.call n _ _ _ = reply
      split
      · exact .within _ { m with store := reply.store, world := reply.world }
      · exact .failed _ { m with store := reply.store, world := reply.world }
    · exact .failed _ m
  | _ => exact .failed _ m

theorem call_withCallers (host : Host World) :
    ((m.withCallers fs).call host f).SameButCallers fs fs' ((m.withCallers fs').call host f) := by
  unfold call
  split
  · exact .failed _ m
  · split
    · exact .failed _ m
    · exact invoke_withCallers m _ host _ _

theorem closeFrame_withCallers (hlen : fs'.length = fs.length) :
    ∃ k : Machine World, (m.withCallers fs).closeFrame = k.withCallers fs ∧
      (m.withCallers fs').closeFrame = k.withCallers fs' := by
  unfold closeFrame
  rw [depth_withCallers m hlen, show (m.withCallers fs').openCells = (m.withCallers fs).openCells
    from rfl]
  split
  · exact ⟨m, rfl, rfl⟩
  · exact ⟨{ m with openCells := m.openCells.below (m.withCallers fs).depth }, rfl, rfl⟩

theorem returnFrom_withCallers (hlen : fs'.length = fs.length) :
    ((m.withCallers fs).returnFrom f).SameButCallers fs fs' ((m.withCallers fs').returnFrom f) := by
  unfold returnFrom
  split
  · exact .failed _ m
  · next v _ _ =>
    obtain ⟨k, hleft, hright⟩ := closeFrame_withCallers m hlen
    dsimp only
    rw [hleft, hright]
    cases fs with
    | nil =>
      obtain rfl := List.length_eq_zero_iff.mp hlen
      exact .finished v _ rfl rfl
    | cons b rest =>
      cases fs' with
      | nil => cases hlen
      | cons b' rest' => exact .returns v k rfl rfl

/-- A step does not depend on who waits. -/
theorem step_withCallers (hlen : fs'.length = fs.length) (host : Host World) :
    ((m.withCallers fs).step host f).SameButCallers fs fs' ((m.withCallers fs').step host f) := by
  unfold step
  split
  · exact .failed _ m
  · next op g _ =>
    have hlocal : ∀ x : Attempt Frame,
        ((m.withCallers fs).conclude (x.map fun f => (f, m.withCallers fs))).SameButCallers fs fs'
          ((m.withCallers fs').conclude (x.map fun f => (f, m.withCallers fs'))) := by
      intro x
      refine conclude_withCallers m ?_
      cases x with
      | ok f => exact .ok ⟨f, m, rfl, rfl⟩
      | error failure => exact .error failure
    cases op with
    | getGlobal => exact conclude_withCallers m (loadGlobal_withCallers m g)
    | defineGlobal => exact conclude_withCallers m (introduceGlobal_withCallers m g)
    | setGlobal => exact conclude_withCallers m (storeGlobal_withCallers m g)
    | getUpvalue => exact conclude_withCallers m (loadUpvalue_withCallers m g)
    | setUpvalue => exact conclude_withCallers m (storeUpvalue_withCallers m g)
    | closeUpvalue => exact conclude_withCallers m (retireUpvalue_withCallers m g hlen)
    | closure => exact conclude_withCallers m (closeOver_withCallers m g hlen)
    | call => exact call_withCallers m g host
    | «return» => exact returnFrom_withCallers m g hlen
    | nil => exact hlocal (runLocal .nil g)
    | «true» => exact hlocal (runLocal .true g)
    | «false» => exact hlocal (runLocal .false g)
    | _ => exact hlocal _

end Waiting

/-! ## Runs of moved code -/

/-- A step of another frame leaves the open cells of the outermost one alone. -/
theorem Machine.Passage.suits {m m' : Machine World} {f g : Frame} {Γ : Layout}
    (h : m.Passage f g m') (hdepth : 0 < m.depth) (hm : m.openCells.Suits Γ) :
    m'.openCells.Suits Γ := by
  cases h with
  | within _ spares =>
    refine ⟨spares.sorted hm.sorted, fun e he hzero => ?_⟩
    exact hm.captured e ((spares.others hm.sorted e (by omega)).mp he) hzero
  | enters _ _ _ _ _ _ _ openCells => exact openCells ▸ hm
  | returns _ _ _ openCells =>
    refine openCells ▸ ⟨hm.sorted.below _, fun e he hzero => ?_⟩
    exact hm.captured e ((OpenCells.mem_below hm.sorted).mp he).1 hzero

section Runs

variable {is js : List Item} {k c : Nat} {p q : Function Value} {t : Typing p}
  {host : Host World}

/-- Both runs are at the same place: in the code that was moved, or in a call that it made. -/
inductive Aligned (t : Typing p) (q : Function Value) (k : Nat) :
    Frame → Machine World → Frame → Machine World → Prop where
  | outermost {f f' : Frame} {m : Machine World} (frame : f.Moved t q k 0 m.openCells f')
      (callers : m.callers = []) : Aligned t q k f m f' m
  | called {g b b' : Frame} {m : Machine World} (us : List Frame)
      (caller : b.Moved t q k 1 m.openCells b') :
      Aligned t q k g (m.withCallers (us ++ [b])) g (m.withCallers (us ++ [b']))

/-- The calls have the same names, innermost first. -/
def SameNames (f : Frame) (m : Machine World) (f' : Frame) (m' : Machine World) : Prop :=
  List.Forall₂ (fun g g' : Frame => g'.function.name = g.function.name) (f :: m.callers)
    (f' :: m'.callers)

/-- Both steps lead to the same place. -/
inductive Progress.Aligned (t : Typing p) (q : Function Value) (k : Nat) (f f' : Frame) :
    Progress World → Progress World → Prop where
  | running {g g' : Frame} {m m' : Machine World} (aligned : ScriptEngine.Aligned t q k g m g' m') :
      Aligned t q k f f' (.running g m) (.running g' m')
  | finished (v : Value) (m : Machine World) : Aligned t q k f f' (.finished v m) (.finished v m)
  | failed {failure failure' : Failure} {m m' : Machine World}
      (fault : failure'.fault = failure.fault) (names : SameNames f m f' m')
      (settled : m'.settle = m.settle) :
      Aligned t q k f f' (.failed failure m) (.failed failure' m')

/-- Both runs end in the same way, as far as a program can tell. -/
inductive Ending.Aligned (t : Typing p) (q : Function Value) (k : Nat) :
    Ending World → Ending World → Prop where
  | returned (v : Value) (m : Machine World) : Aligned t q k (.returned v m) (.returned v m)
  | raised {e e' : RuntimeError} {m m' : Machine World} (error : e.Matches (fun _ _ => True) e')
      (settled : m'.settle = m.settle) : Aligned t q k (.raised e m) (.raised e' m')
  | unfinished {f f' : Frame} {m m' : Machine World}
      (aligned : ScriptEngine.Aligned t q k f m f' m') :
      Aligned t q k (.unfinished f m) (.unfinished f' m')

theorem SameNames.error {f f' : Frame} {m m' : Machine World} {failure failure' : Failure}
    (h : SameNames f m f' m') (hfault : failure'.fault = failure.fault) :
    (RuntimeError.ofFailure failure f.function m.callers).Matches (fun _ _ => True)
      (.ofFailure failure' f'.function m'.callers) := by
  refine ⟨hfault, ?_⟩
  cases h with
  | cons hname hrest =>
    refine .cons ⟨hname, trivial⟩ ?_
    rw [List.forall₂_map_left_iff, List.forall₂_map_right_iff]
    exact hrest.imp fun _ _ h => ⟨h, trivial⟩

theorem Frame.Moved.name_eq (h : Relocates is js k c p q) {f f' : Frame} {missing : Nat}
    {o : OpenCells} (hf : f.Moved t q k missing o f') : f'.function.name = f.function.name := by
  rw [hf.function, hf.function', h.name]

/-- A step keeps the runs at the same place, unless control leaves the code that was moved. -/
theorem Relocates.aligned_step (h : Relocates is js k c p q) (host : Host World)
    {f f' : Frame} {m m' : Machine World} (ha : Aligned t q k f m f' m')
    (hin : m.callers = [] → f.ip < (codeOf is).length) :
    (m.step host f).Aligned t q k f f' (m'.step host f') := by
  cases ha with
  | outermost frame callers =>
    have hstep := h.step host frame (hin callers) callers
    generalize m.step host f = x, m.step host f' = x' at hstep
    cases hstep with
    | within frame callers => exact .running (.outermost frame callers)
    | @enters g b b' m₁ caller callers => exact .running (.called [] caller)
    | finished v m₁ => exact .finished v m₁
    | failed fault ip callers =>
      refine .failed rfl ?_ rfl
      rw [SameNames, callers]
      exact .cons (frame.name_eq h) .nil
  | @called b b' m us caller =>
    have hlen : (us ++ [b']).length = (us ++ [b]).length := by simp
    have hdepth : 0 < (m.withCallers (us ++ [b])).depth := by
      show 0 < (us ++ [b]).length
      simp
    have hcaller : ∀ {g : Frame} {fs : List Frame} {m₁ : Machine World},
        (m.withCallers (us ++ [b])).step host f = .running g (m₁.withCallers fs) →
        b.Moved t q k 1 m₁.openCells b' := by
      intro g fs m₁ hstep
      obtain ⟨Γ, hΓ, hlast, hsize, hsuits⟩ := caller.layout
      exact { caller with
        layout := ⟨Γ, hΓ, hlast, hsize, (passage_of_step hstep).suits hdepth hsuits⟩ }
    have hstep := step_withCallers m f hlen host
    generalize hx : (m.withCallers (us ++ [b])).step host f = x,
      (m.withCallers (us ++ [b'])).step host f = x' at hstep
    cases hstep with
    | within g m₁ => exact .running (.called us (hcaller hx))
    | enters g u m₁ => exact .running (.called (u :: us) (hcaller hx))
    | returns v m₁ left right =>
      have hback := hcaller hx
      cases us with
      | nil =>
        obtain ⟨rfl, rfl⟩ := List.cons.inj left
        obtain ⟨rfl, rfl⟩ := List.cons.inj right
        obtain ⟨Γ, hΓ, hlast, hsize, hsuits⟩ := hback.layout
        refine .running (.outermost ⟨hback.function, hback.function', hback.ip,
          ⟨Γ, hΓ, hlast, ?_, hsuits⟩, hback.slots.push v⟩ rfl)
        rw [← hsize]
        exact Array.size_push v
      | cons u us =>
        obtain ⟨rfl, rfl⟩ := List.cons.inj left
        obtain ⟨rfl, rfl⟩ := List.cons.inj right
        exact .running (.called us hback)
    | finished v m₁ left => exact absurd left (by simp)
    | failed failure m₁ =>
      have hsame : List.Forall₂ (fun g g' : Frame => g'.function.name = g.function.name) us us :=
        List.forall₂_same.mpr fun _ _ => rfl
      exact .failed rfl (.cons rfl (List.rel_append hsame (.cons (caller.name_eq h) .nil))) rfl

/-- As long as control does not leave the code that was moved, the runs are at the same place. -/
theorem Relocates.reaches (h : Relocates is js k c p q) {f f' g : Frame}
    {m m' m₁ : Machine World} (ha : Aligned t q k f m f' m') {n : Nat}
    (hend : ending host n m f = .unfinished g m₁)
    (hin : ∀ i < n, ∀ gᵢ mᵢ, ending host i m f = .unfinished gᵢ mᵢ → mᵢ.callers = [] →
      gᵢ.ip < (codeOf is).length) :
    ∃ g' m₁', ending host n m' f' = .unfinished g' m₁' ∧ Aligned t q k g m₁ g' m₁' := by
  induction n generalizing g m₁ with
  | zero =>
    cases hend
    exact ⟨f', m', rfl, ha⟩
  | succ n ih =>
    obtain ⟨g₀, m₀, hbefore, hstep⟩ := ending_succ_eq_unfinished_iff.mp hend
    obtain ⟨g₀', m₀', hbefore', ha₀⟩ := ih hbefore fun i hi => hin i (Nat.lt_succ_of_lt hi)
    have hnext := h.aligned_step host ha₀ (hin n (Nat.lt_succ_self n) g₀ m₀ hbefore)
    rw [hstep] at hnext
    generalize hx : m₀'.step host g₀' = x at hnext
    cases hnext with
    | running aligned =>
      exact ⟨_, _, ending_succ_eq_unfinished_iff.mpr ⟨_, _, hbefore', hx⟩, aligned⟩

/-- Where all of the code was moved, the runs end in the same way. -/
theorem Relocates.ending_aligned (h : Relocates is [] k c p q) (host : Host World)
    {f f' : Frame} {m m' : Machine World} (ha : Aligned t q k f m f' m') (n : Nat) :
    (Machine.ending host n m f).Aligned t q k (Machine.ending host n m' f') := by
  induction n generalizing f f' m m' with
  | zero => exact .unfinished ha
  | succ n ih =>
    have hin : m.callers = [] → f.ip < (codeOf is).length := by
      intro hcallers
      cases ha with
      | outermost frame =>
        obtain ⟨Γ, hΓ, -⟩ := frame.layout
        rw [← List.append_nil is, ← h.code, Array.length_toList]
        exact t.draft.inside _ Γ hΓ
      | called us => exact absurd hcallers (by simp [withCallers])
    have hstep := h.aligned_step host ha hin
    rw [ending_succ, ending_succ]
    generalize m.step host f = x, m'.step host f' = x' at hstep
    cases hstep with
    | running aligned => exact ih aligned
    | finished v m₁ => exact .returned v m₁
    | failed fault names settled => exact .raised (names.error fault) settled

/-! ### The outermost frame -/

/-- A script starts in the same place. -/
theorem aligned_scriptFrame (harity : p.arity = 0) {f : Frame} {m : Machine World}
    (hfunction : f.function = q) (hip : f.ip = k) (hsize : f.slots.size = 1)
    (hcallers : m.callers = []) (hopen : m.openCells = #[]) :
    Aligned t q k (scriptFrame p) m f m := by
  obtain ⟨Γ, hΓ, hfirst⟩ := t.start
  have hlast : Γ.getLast? = some .callee := by
    rcases t.draft.labels (0, t.first) List.mem_cons_self with ⟨Δ, hΔ, hwiden⟩ | ⟨hzero, -⟩
    · obtain rfl : Γ = Δ := Option.some.inj (hΓ.symm.trans hΔ)
      exact hwiden.getLast t.callee_first
    · exact absurd hzero (Nat.ne_of_lt t.size_pos)
  obtain ⟨x, hx⟩ := Array.size_eq_one_iff.mp hsize
  refine .outermost ⟨rfl, hfunction, hip.trans (Nat.zero_add k).symm, ⟨Γ, hΓ, hlast, ?_, ?_⟩, ?_⟩
    hcallers
  · rw [hfirst, harity]
    rfl
  · rw [hopen]
    exact ⟨OpenCells.sorted_empty, fun e he => absurd he (Array.not_mem_empty e)⟩
  · exact ⟨_, x, #[], rfl, hx⟩

/-- Where the outermost frame holds nothing but the callee, no cell is open. -/
theorem Aligned.settled {f f' : Frame} {m m' : Machine World} (ha : Aligned t q k f m f' m')
    (hnested : m.IsNested) (hcallers : m.callers = [])
    (hone : ∀ Γ, t.layouts f.ip = some Γ → Γ.length = 1) :
    m' = m ∧ m.openCells = #[] ∧ f'.function = q ∧ f'.ip = f.ip + k ∧ f.slots.size = 1 ∧
      f'.slots.size = 1 := by
  cases ha with
  | outermost frame =>
    obtain ⟨Γ, hΓ, hlast, hsize, hsuits⟩ := frame.layout
    obtain ⟨κ, rfl⟩ := List.length_eq_one_iff.mp (hone Γ hΓ)
    obtain rfl : κ = .callee := Option.some.inj hlast
    refine ⟨rfl, Array.eq_empty_iff_forall_not_mem.mpr fun e he => ?_, frame.function', frame.ip,
      hsize, frame.slots.size_eq.trans hsize⟩
    have hdepth : e.place.depth = 0 := Nat.le_zero.mp (by
      have hlive := hnested.live e he
      rwa [Machine.depth, hcallers] at hlive)
    have hcaptured := hsuits.captured e he hdepth
    unfold fromOldest? at hcaptured
    split at hcaptured <;> cases hcaptured
  | called us => exact absurd hcallers (by simp [withCallers])

/-! ### The end of a script -/

/-- What is written at the end of a script that does not end with a return. -/
def endOfScript : List Item := [⟨.nil, []⟩, ⟨.return, []⟩]

namespace Relocates

variable (h : Relocates is endOfScript k c p q)
include h

theorem holds_end : p.chunk.Holds (codeOf is).length [Opcode.nil.toByte] ∧
    p.chunk.Holds ((codeOf is).length + 1) [Opcode.return.toByte] ∧
    p.chunk.code.size = (codeOf is).length + 2 := by
  have hcode : p.chunk.code.toList = [] ++ codeOf (is ++ endOfScript) ++ [] := by
    rw [h.code, List.nil_append, List.append_nil]
  have hnil := holds_of_codeOf hcode (n := is.length) (i := ⟨.nil, []⟩) (by simp [endOfScript])
  have hreturn := holds_of_codeOf hcode (n := is.length + 1) (i := ⟨.return, []⟩)
    (by simp [endOfScript])
  have htake : (is ++ endOfScript).take (is.length + 1) = is ++ [⟨.nil, []⟩] := by
    rw [List.take_length_add_append]
    rfl
  rw [List.take_left, List.length_nil, Nat.zero_add] at hnil
  rw [htake, codeOf_append, List.length_append, List.length_nil, Nat.zero_add] at hreturn
  refine ⟨hnil, hreturn, ?_⟩
  rw [← Array.length_toList, h.code, codeOf_append, List.length_append]
  rfl

/-- At the end of its code a script gives back `nil`. -/
theorem ending_of_end {f : Frame} {m : Machine World} (hfunction : f.function = p)
    (hip : f.ip = (codeOf is).length) (hcallers : m.callers = []) (n : Nat) :
    Machine.ending host (n + 2) m f = .returned .nil m.closeFrame := by
  obtain ⟨hnil, hreturn, -⟩ := h.holds_end
  rw [← hip, ← hfunction] at hnil hreturn
  rw [ending_succ, step_literal rfl hnil]
  dsimp only
  rw [ending_succ, step_return (f := f.goTo (f.ip + 1) (f.slots.push Opcode.nil.literal)) hreturn
    Array.back?_push, hcallers]
  rfl

/-- On the way to the end, control has not been there before. -/
theorem inside_of_end {f f' g : Frame} {m m' m₁ : Machine World} (ha : Aligned t q k f m f' m')
    {n : Nat} (hend : Machine.ending host n m f = .unfinished g m₁)
    (hip : g.ip = (codeOf is).length) (i : Nat) (hi : i < n) (gᵢ : Frame) (mᵢ : Machine World)
    (hbefore : Machine.ending host i m f = .unfinished gᵢ mᵢ) (hcallers : mᵢ.callers = []) :
    gᵢ.ip < (codeOf is).length := by
  induction i using Nat.strong_induction_on generalizing gᵢ mᵢ with
  | _ i ih =>
    obtain ⟨d, rfl⟩ : ∃ d, n = i + (d + 1) := ⟨n - i - 1, by omega⟩
    obtain ⟨gᵢ', mᵢ', -, haᵢ⟩ := h.reaches ha hbefore fun j hj gⱼ mⱼ hreached hidle =>
      ih j hj (by omega) gⱼ mⱼ hreached hidle
    cases haᵢ with
    | called us => exact absurd hcallers (by simp [withCallers])
    | outermost frame =>
      obtain ⟨Γ, hΓ, hlast, hsize, -⟩ := frame.layout
      have hinside : gᵢ.ip < p.chunk.code.size := t.draft.inside _ Γ hΓ
      obtain ⟨hnil, hreturn, hcode⟩ := h.holds_end
      rw [ending_add hbefore] at hend
      by_contra hge
      rcases Nat.eq_or_lt_of_le (Nat.not_lt.mp hge) with heq | hlt
      · -- the first step pushes `nil`, and the second one ends the script
        cases d with
        | zero =>
          rw [heq, ← frame.function] at hnil
          rw [ending_succ, step_literal rfl hnil] at hend
          cases hend
          exact absurd (heq ▸ hip) (Nat.succ_ne_self _)
        | succ d =>
          rw [h.ending_of_end frame.function heq.symm hcallers] at hend
          cases hend
      · have hat : gᵢ.ip = (codeOf is).length + 1 := by omega
        rw [← hat, ← frame.function] at hreturn
        have hpos : gᵢ.slots.size ≠ 0 := by
          rw [Nat.add_zero] at hsize
          rw [hsize]
          exact fun hzero => by
            rw [List.length_eq_zero_iff.mp hzero] at hlast
            cases hlast
        obtain ⟨below, v, hslots⟩ := Array.eq_push_of_size_ne_zero hpos
        rw [ending_succ, step_return hreturn (by rw [hslots, Array.back?_push]), hcallers] at hend
        cases hend

end Relocates

end Runs

end ScriptEngine
