import Mathlib.Logic.Relation
import ScriptEngine.Proofs.Machine.Moves
set_option autoImplicit false

/-!
# Machine: the lives of variables

A variable lives in a slot for as long as its value is not taken off the stack.  An
assignment and a capture in one function are about the same variable if control can get
from the one to the other without that (`Function.Leads`).  Where no captured variable is
assigned to (`Function.SparesCaptures`), a slot that is captured at some time holds the same
value during the whole life of its variable (`Launch.value_in_life`), and so does the cell
(`Launch.entry_agrees`).
-/

namespace ScriptEngine

open Machine

variable {World : Type}

/-! ## Control flow -/

/-- The spot behind an instruction that makes a closure at the spot. -/
def Instruction.behind (i : Instruction) (s : Spot) : Spot := ⟨i.offset + i.size, s.height + 1⟩

namespace Function

/-- Where control can go from a spot by an instruction that leaves the `kept` lowest values
on the stack. -/
def onward (p : Function Value) (kept : Nat) (s : Spot) : List Spot :=
  match p.chunk.decode s.offset with
  | .ok i =>
      if kept + i.takes ≤ s.height then
        i.nexts.map fun next => ⟨next, s.height - i.takes + i.gives⟩
      else []
  | .error _ => []

/-- Control can get from one spot to the other while the `kept` lowest values stay on the
stack. -/
def Leads (p : Function Value) (kept : Nat) : Spot → Spot → Prop :=
  Relation.ReflTransGen fun s s' => s' ∈ p.onward kept s

/-- Control can get to the spot from where the function is entered. -/
def Visits (p : Function Value) (s : Spot) : Prop := p.Leads 0 ⟨0, 1 + p.arity⟩ s

/-- No captured variable is assigned to: not in the functions that captured it, and not in
the one that it belongs to, neither before nor after the capture. -/
structure SparesCaptures (p : Function Value) : Prop where
  cells : ∀ s i, p.Visits s → p.chunk.decode s.offset = .ok i → i.op ≠ .setUpvalue
  locals : ∀ s i s' i' slot, p.Visits s → p.chunk.decode s.offset = .ok i →
    i.assigns? = some slot → p.Visits s' → p.chunk.decode s'.offset = .ok i' →
    ⟨true, slot⟩ ∈ i'.captures →
    ¬ p.Leads (slot + 1) s s' ∧ ¬ p.Leads (slot + 1) (i'.behind s') s

end Function

theorem Frame.Advances.mem_onward {f g : Frame} {i : Instruction} {height kept : Nat}
    (h : f.Advances i g height) (hkept : kept + i.takes ≤ f.slots.size) :
    ⟨g.ip, height⟩ ∈ f.function.onward kept f.spot := by
  have hheight := h.height
  have hdecode : f.function.chunk.decode f.spot.offset = .ok i := h.decode
  unfold Function.onward
  rw [hdecode]
  dsimp only
  rw [if_pos (show kept + i.takes ≤ f.spot.height from hkept)]
  refine List.mem_map.mpr ⟨g.ip, h.next, congrArg (Spot.mk g.ip) ?_⟩
  show f.slots.size - i.takes + i.gives = height
  omega

/-! ## Slots of live frames -/

/-- The value in a slot of a live frame. -/
def Machine.valueAt (m : Machine World) (f : Frame) (place : SlotPlace) : Option Value :=
  (m.frameAt f place.depth).bind fun g => g.slots[place.slot]?

/-- The live frame `o` is at the spot `s`, and it has the slot. -/
structure Machine.Stands (m : Machine World) (f : Frame) (place : SlotPlace) (o : Frame)
    (s : Spot) : Prop where
  frame : m.frameAt f place.depth = some o
  spot : m.spotAt f place.depth = some s
  inside : place.slot < o.slots.size

section Frames

variable {m : Machine World} {f o : Frame} {place : SlotPlace} {d : Nat} {v : Value}

theorem exists_spotAt (h : m.frameAt f d = some o) :
    ∃ s, m.spotAt f d = some s ∧ s.offset = o.ip := by
  rcases Nat.lt_or_eq_of_le (le_depth_of_frameAt h) with hlt | rfl
  · rw [frameAt_of_lt hlt] at h
    rw [spotAt_of_ne (Nat.ne_of_lt hlt), h]
    exact ⟨_, rfl, rfl⟩
  · rw [frameAt_depth] at h
    cases h
    exact ⟨_, spotAt_depth _ _, rfl⟩

theorem exists_frameAt (h : d ≤ m.depth) : ∃ o, m.frameAt f d = some o :=
  exists_fromOldest (Nat.lt_succ_of_le h)

theorem exists_stands (h : m.valueAt f place = some v) :
    ∃ o s, m.Stands f place o s ∧ o.slots[place.slot]? = some v := by
  obtain ⟨o, ho, hv⟩ := Option.bind_eq_some_iff.mp h
  obtain ⟨s, hs, -⟩ := exists_spotAt ho
  exact ⟨o, s, ⟨ho, hs, (Array.getElem?_eq_some_iff.mp hv).1⟩, hv⟩

theorem Machine.Stands.valueAt {s : Spot} (h : m.Stands f place o s) :
    m.valueAt f place = o.slots[place.slot]? := by
  unfold Machine.valueAt
  rw [h.frame]
  rfl

end Frames

/-! ## Launches -/

/-- A run of compiled code starts with one call and no open cells, and no function assigns
to a captured variable. -/
structure Launch (L : Library) (host : Host World) (m : Machine World) (f : Frame) : Prop where
  exact : L.IsExact
  spares : host.SparesCells
  runs : ∃ Γ, f.Runs L Γ
  sound : m.IsSound L host
  start : f.spot = ⟨0, 1 + f.function.arity⟩
  callers : m.callers = []
  openCells : m.openCells = #[]
  faithful : ∀ p, L.Has p → p.SparesCaptures

theorem Host.SparesCells.keepsCells {host : Host World} (h : host.SparesCells) :
    host.KeepsCells := fun n arguments store world => (h n arguments store world).grows

/-- What holds of fewer steps. -/
theorem Machine.Remains.mono {host : Host World} {m : Machine World} {f : Frame}
    {place : SlotPlace} {first last first' last' : Nat}
    (h : Remains host m f place first last) (hfirst : first ≤ first') (hlast : last' ≤ last) :
    Remains host m f place first' last' := fun n g k hn hn' =>
  h n g k (Nat.le_trans hfirst hn) (Nat.lt_of_lt_of_le hn' hlast)

namespace Launch

variable {L : Library} {host : Host World} {m k k' k₁ : Machine World} {f g g' g₁ o : Frame}
  {n n' : Nat} {place : SlotPlace} {s : Spot} {cell : Cell} {c : Closure Value} {v w : Value}

theorem isTidy (h : Launch L host m f) : m.IsTidy L f := by
  have hnone : ∀ e, e ∉ m.openCells := fun e he => Array.not_mem_empty e (h.openCells ▸ he)
  exact ⟨⟨h.openCells ▸ OpenCells.sorted_empty, fun e he => absurd he (hnone e),
    fun e he => absurd he (hnone e)⟩, fun e he => absurd he (hnone e)⟩

/-- Whatever the run gets to is sound. -/
theorem state (h : Launch L host m f) (hn : ending host n m f = .unfinished g k) :
    (∃ Γ, g.Runs L Γ) ∧ k.IsSound L host ∧ k.IsTidy L g := by
  obtain ⟨Γ, hf⟩ := h.runs
  obtain ⟨hg, hk⟩ := runs_of_unfinished h.exact.isStrict hf h.sound hn
  exact ⟨hg, hk, isTidy_of_unfinished h.exact.isStrict h.spares.keepsCells hf h.sound h.isTidy hn⟩

theorem moves (h : Launch L host m f) (hn : ending host n m f = .unfinished g k)
    (hstep : k.step host g = .running g' k') : Moves host k g k' g' := by
  obtain ⟨⟨Γ, hg⟩, -, htidy⟩ := h.state hn
  exact moves_of_step h.spares hg htidy hstep

/-- The functions of all live frames are compiled ones. -/
theorem has (h : Launch L host m f) (hn : ending host n m f = .unfinished g k) {d : Nat}
    (ho : k.frameAt g d = some o) : L.Has o.function := by
  obtain ⟨⟨Γ, hg⟩, hk, -⟩ := h.state hn
  rcases List.mem_cons.mp (mem_of_fromOldest ho) with rfl | hmem
  · exact hg.has
  · obtain ⟨Δ, hwaits⟩ := (hk.callers o hmem).exists_waits h.exact.isStrict
    exact hwaits.has

/-- A live frame is where control can get to in its function. -/
theorem visits (h : Launch L host m f) (hn : ending host n m f = .unfinished g k) {d : Nat}
    (ho : k.frameAt g d = some o) (hs : k.spotAt g d = some s) : o.function.Visits s := by
  induction n generalizing g k d o s with
  | zero =>
    cases hn
    have hd : d = m.depth := Nat.le_antisymm (le_depth_of_frameAt ho)
      (by unfold Machine.depth; rw [h.callers]; exact Nat.zero_le d)
    subst hd
    rw [frameAt_depth] at ho
    rw [spotAt_depth] at hs
    cases ho
    cases hs
    rw [h.start]
    exact .refl
  | succ n ih =>
    obtain ⟨g₀, k₀, hbefore, hstep⟩ := ending_succ_eq_unfinished_iff.mp hn
    cases (h.moves hbefore hstep).frames d o ho with
    | entered _ hspot =>
      obtain rfl := Option.some.inj (hspot.symm.trans hs)
      exact .refl
    | same before hframe hfunction hspot =>
      rw [hfunction]
      exact ih hbefore hframe (hspot ▸ hs)
    | advanced i height hdepth hspot hadvances =>
      obtain rfl := Option.some.inj (hspot.symm.trans hs)
      have hvisits := ih hbefore (frameAt_depth _ _) (spotAt_depth _ _)
      rw [hadvances.function]
      exact hvisits.tail (hadvances.mem_onward (by rw [Nat.zero_add]; exact hadvances.enough))

/-! ### Slots -/

/-- A step that does not take the slot's value off the stack only changes it by an
assignment. -/
theorem stands_step (h : Launch L host m f) (hn : ending host n m f = .unfinished g k)
    (hstep : k.step host g = .running g' k') (hs : k.Stands g place o s)
    (hstays : ¬ k.Vacates g place) :
    ∃ o' s', k'.Stands g' place o' s' ∧ o'.function = o.function ∧
      (s' = s ∨ s' ∈ o.function.onward (place.slot + 1) s) ∧
      (o'.slots[place.slot]? = o.slots[place.slot]? ∨ (k.Stands g place g g.spot ∧
        ∃ i, g.chunk.decode g.ip = .ok i ∧ i.assigns? = some place.slot)) := by
  obtain ⟨⟨Γ, hg⟩, hk, htidy⟩ := h.state hn
  have hle := le_depth_of_frameAt hs.frame
  have hle' : place.depth ≤ k'.depth := by
    rcases le_depth_of_step hg hk htidy hstep with hmore | ⟨hless, hspared⟩
    · exact Nat.le_trans hle hmore
    · by_contra hgone
      refine hstays ⟨by omega, ?_⟩
      rw [hspared]
      exact Nat.zero_le _
  obtain ⟨o', ho'⟩ := exists_frameAt (f := g') hle'
  obtain ⟨s', hs', -⟩ := exists_spotAt ho'
  cases (h.moves hn hstep).frames _ o' ho' with
  | entered hdepth => omega
  | same before hframe hfunction hspot hslots =>
    obtain rfl := Option.some.inj (hframe.symm.trans hs.frame)
    obtain rfl := Option.some.inj (hs'.symm.trans (hspot.trans hs.spot))
    have hvalue := hslots _ hs.inside
    refine ⟨o', s', ⟨ho', hs', ?_⟩, hfunction, .inl rfl, .inl hvalue⟩
    rw [Array.getElem?_eq_getElem hs.inside] at hvalue
    exact (Array.getElem?_eq_some_iff.mp hvalue).1
  | advanced i height hdepth hspot hadvances =>
    have hframe := hs.frame
    have hspot' := hs.spot
    rw [hdepth, frameAt_depth] at hframe
    rw [hdepth, spotAt_depth] at hspot'
    cases hframe
    cases hspot'
    obtain rfl := Option.some.inj (hs'.symm.trans hspot)
    have hop : i.op ≠ .return := by
      intro hop
      have hnext := hadvances.next
      unfold Instruction.nexts at hnext
      rw [hop] at hnext
      cases hnext
    have hkeeps : place.slot + i.takes < g.slots.size := by
      rw [← hg.taken_eq hadvances.decode hop]
      have hlt : ¬ g.spared ≤ place.slot := fun hle => hstays ⟨hdepth, hle⟩
      unfold Frame.spared at hlt
      omega
    have honward : _ ∈ g.function.onward (place.slot + 1) g.spot :=
      hadvances.mem_onward (by omega)
    rcases hadvances.kept _ hkeeps with ⟨hassigns, hinside⟩ | hvalue
    · exact ⟨o', _, ⟨ho', hs', hinside⟩, hadvances.function, .inr honward,
        .inr ⟨hs, i, hadvances.decode, hassigns⟩⟩
    · refine ⟨o', _, ⟨ho', hs', ?_⟩, hadvances.function, .inr honward, .inl hvalue⟩
      rw [Array.getElem?_eq_getElem hs.inside] at hvalue
      exact (Array.getElem?_eq_some_iff.mp hvalue).1

/-- While a slot's value stays on the stack, control moves within the function. -/
theorem stands_of_remains (h : Launch L host m f) (hle : n ≤ n')
    (hn : ending host n m f = .unfinished g k) (hn' : ending host n' m f = .unfinished g' k')
    (hremains : Remains host m f place n n') (hs : k.Stands g place o s) :
    ∃ o' s', k'.Stands g' place o' s' ∧ o'.function = o.function ∧
      o.function.Leads (place.slot + 1) s s' := by
  induction n', hle using Nat.le_induction generalizing g' k' with
  | base =>
    obtain ⟨rfl, rfl⟩ := Ending.unfinished.inj (hn'.symm.trans hn)
    exact ⟨o, s, hs, rfl, .refl⟩
  | succ n' hle ih =>
    obtain ⟨g₁, k₁, hbefore, hstep⟩ := ending_succ_eq_unfinished_iff.mp hn'
    obtain ⟨o₁, s₁, hs₁, hfunction₁, hleads⟩ :=
      ih hbefore (hremains.mono (Nat.le_refl _) (Nat.le_succ _))
    obtain ⟨o', s', hs', hfunction, honward, -⟩ := h.stands_step hbefore hstep hs₁
      (hremains n' g₁ k₁ hle (Nat.lt_succ_self _) hbefore)
    refine ⟨o', s', hs', hfunction.trans hfunction₁, ?_⟩
    rcases honward with rfl | honward
    · exact hleads
    · exact hleads.tail (hfunction₁ ▸ honward)

/-- While a slot's value stays on the stack and is not assigned to, it stays the same. -/
theorem value_of_remains (h : Launch L host m f) (hle : n ≤ n')
    (hn : ending host n m f = .unfinished g k) (hn' : ending host n' m f = .unfinished g' k')
    (hremains : Remains host m f place n n') (hv : k.valueAt g place = some v)
    (hquiet : ∀ j g₁ k₁ i, n ≤ j → j < n' → ending host j m f = .unfinished g₁ k₁ →
      k₁.Stands g₁ place g₁ g₁.spot → g₁.chunk.decode g₁.ip = .ok i →
      i.assigns? ≠ some place.slot) : k'.valueAt g' place = some v := by
  induction n', hle using Nat.le_induction generalizing g' k' with
  | base =>
    obtain ⟨rfl, rfl⟩ := Ending.unfinished.inj (hn'.symm.trans hn)
    exact hv
  | succ n' hle ih =>
    obtain ⟨g₁, k₁, hbefore, hstep⟩ := ending_succ_eq_unfinished_iff.mp hn'
    have hv₁ := ih hbefore (hremains.mono (Nat.le_refl _) (Nat.le_succ _))
      fun j g₂ k₂ i hj hj' => hquiet j g₂ k₂ i hj (Nat.lt_succ_of_lt hj')
    obtain ⟨o₁, s₁, hs₁, hvalue⟩ := exists_stands hv₁
    obtain ⟨o', s', hs', -, -, hsame | ⟨hrunning, i, hi, hassigns⟩⟩ :=
      h.stands_step hbefore hstep hs₁ (hremains n' g₁ k₁ hle (Nat.lt_succ_self _) hbefore)
    · rw [hs'.valueAt, hsame, hvalue]
    · exact absurd hassigns (hquiet n' g₁ k₁ i hle (Nat.lt_succ_self _) hbefore hrunning hi)

/-! ### Captures -/

/-- A captured variable is in its slot once the closure is made. -/
theorem captured (h : Launch L host m f) (hn : ending host n m f = .unfinished g k)
    (hc : k.Captures host g place cell c k₁) :
    ∃ g₁ i, ending host (n + 1) m f = .unfinished g₁ k₁ ∧ g.chunk.decode g.ip = .ok i ∧
      ⟨true, place.slot⟩ ∈ i.captures ∧ k₁.Stands g₁ place g₁ (i.behind g.spot) ∧
      g₁.function = g.function ∧ g₁.slots = g.slots.push (.closure c) := by
  obtain ⟨⟨Γ, hg⟩, -, htidy⟩ := h.state hn
  obtain ⟨ip, hstep⟩ := hc.step
  obtain ⟨i, j, hi, hcapture, -⟩ := hc.instruction
  have hnext := ending_succ_eq_unfinished_iff.mpr ⟨g, k, hn, hstep⟩
  have hdepth : k₁.depth = k.depth := by
    obtain ⟨p, ip', taken, after, htake, -, hstep'⟩ :=
      exists_takeAll host k hg (Progress.not_hasFailed hstep) hi hcapture
    have hgathers := gathers_takeAll (f := g) htidy.toIsOrdered i.captures {}
    rw [htake] at hgathers
    obtain ⟨-, rfl⟩ := Progress.running.inj (hstep.symm.trans hstep')
    exact depth_eq hgathers.callers
  have hplace : place.depth = k₁.depth := hc.depth.trans hdepth.symm
  have hop : i.op = .closure := by
    by_contra hne
    rw [i.captures_of_ne hne] at hcapture
    cases hcapture
  have hspot : k₁.spotAt (g.goTo ip (g.slots.push (.closure c))) k₁.depth =
      some ⟨ip, g.slots.size + 1⟩ :=
    (spotAt_depth _ _).trans (congrArg (fun n => some (Spot.mk ip n)) (Array.size_push _))
  refine ⟨_, i, hnext, hi, List.mem_of_getElem? hcapture, ⟨?_, ?_, ?_⟩, rfl, rfl⟩
  · rw [hplace, frameAt_depth]
  · rw [hplace, hspot]
    cases (h.moves hn hstep).frames _ _ (frameAt_depth _ _) with
    | entered hmore => exact absurd (hdepth.symm.trans hmore) (Nat.ne_of_lt (Nat.lt_succ_self _))
    | same before _ _ hsame =>
      rw [hspot, hdepth, spotAt_depth] at hsame
      have hheight := congrArg Spot.height (Option.some.inj hsame)
      exact absurd hheight (Nat.ne_of_gt (Nat.lt_succ_self _))
    | advanced i' height _ _ hadvances =>
      obtain rfl : i' = i := Except.ok.inj (hadvances.decode.symm.trans hi)
      have hip := hadvances.next
      unfold Instruction.nexts at hip
      rw [hop] at hip
      obtain rfl : ip = i'.offset + i'.size := List.mem_singleton.mp hip
      rfl
  · obtain ⟨hmem, -⟩ := (hc.opened hg htidy).1
    obtain ⟨owner, howner, hexposes⟩ := (h.state hnext).2.2.live _ hmem
    rw [hplace, frameAt_depth] at howner
    cases howner
    exact hexposes.inside

/-- A variable that is captured is never assigned to. -/
theorem quiet (h : Launch L host m f) (hn : ending host n m f = .unfinished g k)
    (hc : k.Captures host g place cell c k₁) (hn' : ending host n' m f = .unfinished g' k')
    (hlife : Remains host m f place (min n' (n + 1)) (max n' (n + 1)))
    (hs : k'.Stands g' place g' g'.spot) {i : Instruction}
    (hi : g'.chunk.decode g'.ip = .ok i) : i.assigns? ≠ some place.slot := by
  intro hassigns
  obtain ⟨g₁, j, hnext, hj, hcapture, hs₁, hfunction₁, -⟩ := h.captured hn hc
  have hvisits := h.visits hn (frameAt_depth _ _) (spotAt_depth _ _)
  have hvisits' := h.visits hn' hs.frame hs.spot
  rcases Nat.lt_or_ge n n' with hle | hle
  · rw [Nat.min_eq_right hle, Nat.max_eq_left hle] at hlife
    obtain ⟨o, s, hs₂, hfunction, hleads⟩ := h.stands_of_remains hle hnext hn' hlife hs₁
    obtain rfl := Option.some.inj (hs₂.frame.symm.trans hs.frame)
    obtain rfl := Option.some.inj (hs₂.spot.symm.trans hs.spot)
    rw [← hfunction] at hleads
    rw [← hfunction₁, ← hfunction] at hvisits
    have hj' : o.function.chunk.decode g.ip = .ok j := by
      rw [hfunction, hfunction₁]
      exact hj
    exact ((h.faithful _ (h.has hn' hs.frame)).locals o.spot i g.spot j _ hvisits' hi hassigns
      hvisits hj' hcapture).2 hleads
  · obtain ⟨o, s, hs₂, hfunction, hleads⟩ := h.stands_of_remains hle hn' hn
      (hlife.mono (Nat.min_le_left ..) (Nat.le_trans (Nat.le_succ n) (Nat.le_max_right ..))) hs
    have hframe := hs₂.frame
    have hspot := hs₂.spot
    rw [hc.depth, frameAt_depth] at hframe
    rw [hc.depth, spotAt_depth] at hspot
    obtain rfl := Option.some.inj hframe
    obtain rfl := Option.some.inj hspot
    rw [hfunction] at hvisits
    have hj' : g'.function.chunk.decode g.ip = .ok j := hfunction ▸ hj
    exact ((h.faithful _ (h.has hn' hs.frame)).locals g'.spot i g.spot j _ hvisits' hi hassigns
      hvisits hj' hcapture).1 hleads

/-- During the whole life of a variable that is captured at some time, its slot holds the
same value. -/
theorem value_in_life (h : Launch L host m f) (hn : ending host n m f = .unfinished g k)
    (hc : k.Captures host g place cell c k₁) (hnext : ending host (n + 1) m f = .unfinished g₁ k₁)
    (hv : k₁.valueAt g₁ place = some v) (hn' : ending host n' m f = .unfinished g' k')
    (hlife : Remains host m f place (min n' (n + 1)) (max n' (n + 1))) :
    (n + 1 ≤ n' → k'.valueAt g' place = some v) ∧
      ∀ w, k'.valueAt g' place = some w → w = v := by
  have hquiet : ∀ j g₂ k₂ i, min n' (n + 1) ≤ j → j < max n' (n + 1) →
      ending host j m f = .unfinished g₂ k₂ → k₂.Stands g₂ place g₂ g₂.spot →
      g₂.chunk.decode g₂.ip = .ok i → i.assigns? ≠ some place.slot := by
    intro j g₂ k₂ i hfirst hlast hj hs hi
    exact h.quiet hn hc hj (hlife.mono (by omega) (by omega)) hs hi
  rcases Nat.le_total n' (n + 1) with hle | hle
  · rw [Nat.min_eq_left hle, Nat.max_eq_right hle] at hlife hquiet
    have hall : ∀ w, k'.valueAt g' place = some w → w = v := fun w hw =>
      Option.some.inj ((h.value_of_remains hle hn' hnext hlife hw hquiet).symm.trans hv)
    refine ⟨fun hge => ?_, hall⟩
    obtain rfl : n' = n + 1 := Nat.le_antisymm hle hge
    obtain ⟨rfl, rfl⟩ := Ending.unfinished.inj (hnext.symm.trans hn')
    exact hv
  · rw [Nat.min_eq_right hle, Nat.max_eq_left hle] at hlife hquiet
    have hv' := h.value_of_remains hle hnext hn' hlife hv hquiet
    exact ⟨fun _ => hv', fun w hw => Option.some.inj (hw.symm.trans hv')⟩

/-! ### Cells -/

/-- No cell changes. -/
theorem spares_step (h : Launch L host m f) (hn : ending host n m f = .unfinished g k)
    (hstep : k.step host g = .running g' k') : k.store.Spares k'.store := by
  rcases (h.moves hn hstep).store with ⟨i, hi, hop⟩ | hspares
  · have hvisits := h.visits hn (frameAt_depth _ _) (spotAt_depth _ _)
    exact absurd hop ((h.faithful _ (h.has hn (frameAt_depth _ _))).cells g.spot i hvisits hi)
  · exact hspares

theorem spares_of_le (h : Launch L host m f) (hle : n ≤ n')
    (hn : ending host n m f = .unfinished g k) (hn' : ending host n' m f = .unfinished g' k') :
    k.store.Spares k'.store := by
  induction n', hle using Nat.le_induction generalizing g' k' with
  | base =>
    obtain ⟨rfl, rfl⟩ := Ending.unfinished.inj (hn'.symm.trans hn)
    exact .refl _
  | succ n' hle ih =>
    obtain ⟨g₁, k₁, hbefore, hstep⟩ := ending_succ_eq_unfinished_iff.mp hn'
    exact (ih hbefore).trans (h.spares_step hbefore hstep)

/-- An open cell was new when its slot was captured for the first time. -/
theorem exists_capture (h : Launch L host m f) (hn : ending host n m f = .unfinished g k)
    {e : OpenCell} (he : e ∈ k.openCells) :
    ∃ n₀ g₀ k₀ c k₁, n₀ < n ∧ ending host n₀ m f = .unfinished g₀ k₀ ∧
      k₀.Captures host g₀ e.place e.cell c k₁ ∧ e ∉ k₀.openCells ∧
      Remains host m f e.place (n₀ + 1) n := by
  induction n generalizing g k with
  | zero =>
    cases hn
    exact absurd (h.openCells ▸ he) (Array.not_mem_empty e)
  | succ n ih =>
    obtain ⟨g', k', hbefore, hstep⟩ := ending_succ_eq_unfinished_iff.mp hn
    by_cases hold : e ∈ k'.openCells
    · obtain ⟨n₀, g₀, k₀, c, k₁, hlt, hn₀, hc, hnew, hremains⟩ := ih hbefore hold
      refine ⟨n₀, g₀, k₀, c, k₁, Nat.lt_succ_of_lt hlt, hn₀, hc, hnew, ?_⟩
      intro j g₂ k₂ hj hj' hstate
      rcases Nat.lt_or_eq_of_le (Nat.le_of_lt_succ hj') with hlt' | rfl
      · exact hremains j g₂ k₂ hj hlt' hstate
      · obtain ⟨rfl, rfl⟩ := Ending.unfinished.inj (hstate.symm.trans hbefore)
        obtain ⟨⟨Γ, hg⟩, hk, htidy⟩ := h.state hbefore
        have hturn := turn_of_step hg hk
        rw [hstep] at hturn
        exact ((hturn.evolves h.spares.keepsCells hg htidy).1.kept e hold).mp he
    · obtain ⟨c, hc⟩ := ((h.moves hbefore hstep).opened e he).resolve_left hold
      refine ⟨n, g', k', c, k, Nat.lt_succ_self n, hbefore, hc, hold, fun j _ _ hj hj' => ?_⟩
      exact absurd hj (Nat.not_le.mpr hj')

/-- Each open cell holds the value in its slot. -/
theorem entry_agrees (h : Launch L host m f) (hn : ending host n m f = .unfinished g k)
    {e : OpenCell} (he : e ∈ k.openCells) :
    k.valueAt g e.place = some (k.store.read e.cell) := by
  obtain ⟨n₀, g₀, k₀, c, k₁, hlt, hn₀, hc, hnew, hremains⟩ := h.exists_capture hn he
  obtain ⟨⟨Γ, hg₀⟩, -, htidy₀⟩ := h.state hn₀
  obtain ⟨g₁, i, hnext, -, -, hs₁, -, hslots⟩ := h.captured hn₀ hc
  obtain ⟨⟨hmem, -⟩, hcontent⟩ := hc.opened hg₀ htidy₀
  obtain ⟨-, hread⟩ := hcontent.resolve_left hnew
  -- when the cell is new it holds what is in the slot once the closure is made
  have hv : k₁.valueAt g₁ e.place = some (k₁.store.read e.cell) := by
    rw [hs₁.valueAt, hslots]
    split at hread
    · next hown => rw [hown, Array.getElem?_push_size, hread]
    · next hown =>
      have hinside := (Array.getElem?_eq_some_iff.mp hread).1
      rw [Array.getElem?_push, if_neg (Nat.ne_of_lt hinside), hread]
  have hspares := h.spares_of_le hlt hnext hn
  rw [hspares.reads _ ((h.state hnext).2.2.stored _ hmem)]
  have hle : n₀ + 1 ≤ n := hlt
  exact (h.value_in_life hn₀ hc hnext hv hn
    (by rwa [Nat.min_eq_right hle, Nat.max_eq_left hle])).1 hle

end Launch

end ScriptEngine
