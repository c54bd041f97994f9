import ScriptEngine.Proofs.Joined.Renaming
import ScriptEngine.Proofs.Joined.Script
set_option autoImplicit false

/-!
# Two sources on one another: sessions

When the run of a first source comes to its end, a second source goes on from there as the second
part of both in one source would (`interpret_joined`).  The run of both has two parts.  In the first
one it is the run of the first source, with code behind its end that is not reached: that run is
compared with itself, once for the functions that are numbered otherwise, and once for the
identities that only the functions of the second source have.  In the second part it is the run of
the second source, with code before it.
-/

namespace ScriptEngine

open Compile Machine

variable {World : Type}

/-! ## The same script with another identity -/

section Identities

variable {is js : List Item} {k c : Nat} {p q : Function Value}

/-- The layouts of a function do not depend on which one it is. -/
def Typing.withId (t : Typing p) (a : Identity) : Typing { p with id := a } :=
  ⟨t.layouts, t.marks, t.first, t.last, t.length_first, t.callee_first, t.size_lines, t.draft⟩

theorem Relocates.withId (h : Relocates is js k c p q) (a : Identity) :
    Relocates is js k c { p with id := a } q :=
  ⟨h.code, h.fits, h.moved, h.name, h.constants, h.room, h.captureCount⟩

/-- Code stands in its own place. -/
theorem Relocates.self (h : Relocates is js k c p q) (a : Identity) :
    Relocates is js 0 0 p { p with id := a } where
  code := h.code
  fits := h.fits
  moved := by
    refine ⟨[], codeOf js, rfl, ?_⟩
    rw [List.map_id'' Item.shift_zero, List.nil_append, ← codeOf_append]
    exact h.code
  name := rfl
  constants _ _ := rfl
  room := Nat.le_trans (Nat.le_add_right _ c) h.room
  captureCount := h.captureCount

/-- The run of a script comes to the end of its code, if that does not return before, wherever
the code stands. -/
theorem Relocates.at_end (h : Relocates is endOfScript k c p q) {t : Typing p}
    (hone : ∀ Γ, t.layouts (codeOf is).length = some Γ → Γ.length = 1) (harity : p.arity = 0)
    {host : Host World} {m m₁ : Machine World} (hidle : m.IsIdle) (start : Frame) {g : Frame}
    (hfunction : start.function = q) (hstart : start.ip = k) (hsize : start.slots.size = 1)
    {n : Nat} (hend : ending host n m (scriptFrame p) = .unfinished g m₁)
    (hcallers : m₁.callers = []) (hip : g.ip = (codeOf is).length) :
    m₁.IsIdle ∧ g.function = p ∧ ∃ f', ending host n m start = .unfinished f' m₁ ∧
      f'.function = q ∧ f'.ip = (codeOf is).length + k ∧ f'.slots.size = 1 := by
  have ha : Aligned t q k (scriptFrame p) m start m :=
    aligned_scriptFrame harity hfunction hstart hsize hidle.callers hidle.openCells
  obtain ⟨f', m₁', hend', ha₁⟩ := h.reaches ha hend fun i hi gᵢ mᵢ hreached hidleᵢ =>
    h.inside_of_end ha hend hip i hi gᵢ mᵢ hreached hidleᵢ
  have hnested : m₁.IsNested := isNested_of_unfinished (isNested_idle hidle.openCells) hend
  have hfunction₁ : g.function = p := by
    cases ha₁ with
    | outermost frame => exact frame.function
    | called us => exact absurd hcallers (by simp [withCallers])
  obtain ⟨rfl, hopen, hfunction', hip', -, hsize'⟩ :=
    ha₁.settled hnested hcallers fun Γ hΓ => hone Γ (hip ▸ hΓ)
  exact ⟨⟨hcallers, hopen⟩, hfunction₁, f', hend', hfunction', hip ▸ hip', hsize'⟩

end Identities

/-! ## The first source -/

/-- Scripts that match start alike. -/
theorem scriptFrame_matches {M : Matching} {p p' : Function Value} (h : p.Matches M p') :
    (scriptFrame p).Matches M (scriptFrame p') :=
  ⟨h, .nil, rfl, .cons h .nil⟩

section First

variable {host : Host World} {n₂ : Identity} {is js : List Item} {p₁ p₂ p q : Function Value}
  {m mA : Machine World} {M : Matching} {f : Frame} {k : Nat}

/-- When the run of the first source comes to its end, the run of both sources is at the end of
the first one.  What the machines hold then matches, and on the second side nothing has an
identity that was handed out for the functions of the second source. -/
theorem Composes.first_part (hc : Composes m.store.nextId n₂ is js p₁ p₂ p q)
    (hhost : host.IsUniform Eq) (hidle : m.IsIdle) (hlines : M.lines = Eq) (hsame : M.IsIdentity)
    (hm : m.Matches M Eq m)
    (hend : ending host k (m.withNextId (p₁.id + 1)) (scriptFrame p₁) = .unfinished f mA)
    (hcallers : mA.callers = []) (hip : f.ip = (codeOf is).length) :
    ∃ N f' mB, ending host k (m.withNextId (q.id + 1)) (scriptFrame q) = .unfinished f' mB ∧
      f'.function = q ∧ f'.ip = (codeOf is).length ∧ f'.slots.size = 1 ∧ f.function = p₁ ∧
      mA.IsIdle ∧ mB.IsIdle ∧ M.Keeps N ∧ mA.Matches N Eq mB ∧ N.ids p₁.id q.id ∧
      ∀ a b, N.ids a b → b < p₁.id ∨ q.id ≤ b := by
  obtain ⟨k₁, k₂, hp₁, -, hq⟩ := hc.ids
  obtain ⟨t, hone⟩ := hc.typing₁
  have hle₁ : m.store.nextId ≤ p₁.id := hp₁ ▸ Nat.le_add_right _ _
  have hle : p₁.id ≤ q.id := hq ▸ hp₁ ▸ Nat.le_add_right _ _
  have hline : ∀ i, M.lines i i := fun i => by rw [hlines]
  have hfresh : ∀ {a b : Identity}, m.store.nextId ≤ a → m.store.nextId ≤ b →
      (∀ x, ¬ M.ids a x) ∧ ∀ x, ¬ M.ids x b := fun ha hb =>
    ⟨fun _ h => Nat.not_lt.mpr ha (hm.store.ids h).1,
      fun _ h => Nat.not_lt.mpr hb (hm.store.ids h).2⟩
  -- the same script on either machine, with the identities of the machine
  have hleft : (m.withNextId (p₁.id + 1)).Matches
      (M.adding (Matching.Staying m.store.nextId p₁.id q.id)) Eq (m.withNextId (q.id + 1)) :=
    hm.adding (fun h h' => h.iff h' hle)
      (fun h => hfresh (h.bounds hle₁ hle).1 (h.bounds hle₁ hle).2.1)
      (fun h => (h.bounds hle₁ hle).2.2) (Nat.le_succ_of_le hle₁)
      (Nat.le_succ_of_le (Nat.le_trans hle₁ hle))
  obtain ⟨N, hN, hruns⟩ := hleft.ending hhost (scriptFrame_matches
    (hc.self _ p₁.id q.id hline (fun i hi hlt => .inr (.inl ⟨hi, hlt, rfl⟩))
      (.inr (.inr ⟨rfl, rfl⟩)))) (hline 0) k
  rw [hend] at hruns
  generalize hend' : ending host k (m.withNextId (q.id + 1))
    (scriptFrame { p₁ with id := q.id }) = e at hruns
  cases hruns with
  | @unfinished _ g _ mB hframe hmatch =>
  have hcallers' : mB.callers = [] := by
    have hall := hmatch.callers
    rw [hcallers] at hall
    exact List.forall₂_nil_left_iff.mp hall
  have hip' : g.ip = (codeOf is).length := hframe.ip.trans hip
  obtain ⟨hidleA, hfunctionA, -⟩ := hc.first.at_end hone hc.arity₁ (hidle.withNextId _)
    (scriptFrame q) rfl rfl rfl hend hcallers hip
  obtain ⟨hidleB, -, f', hendB, hfunction, hipB, hsize⟩ := (hc.first.withId q.id).at_end
    (t := t.withId q.id) hone hc.arity₁ (hidle.withNextId _) (scriptFrame q) rfl rfl rfl hend'
    hcallers' hip'
  -- the same script twice on the second machine, where the spare identities are shifted
  have hright : (m.withNextId (q.id + 1)).Matches
      (M.adding (Matching.Shifting m.store.nextId p₁.id q.id)) Eq (m.withNextId (q.id + 1)) :=
    hm.adding (fun h h' => h.iff h' hle)
      (fun h => hfresh (h.bounds hle₁ hle).1 (h.bounds hle₁ hle).2.1)
      (fun h => (h.bounds hle₁ hle).2.2) (Nat.le_succ_of_le (Nat.le_trans hle₁ hle))
      (Nat.le_succ_of_le (Nat.le_trans hle₁ hle))
  obtain ⟨Q, hQ, hself⟩ := hright.ending hhost (scriptFrame_matches
    (hc.self _ q.id p₁.id hline (fun i hi hlt => .inr (.inl ⟨hi, hlt, rfl⟩))
      (.inr (.inr (.inr ⟨rfl, rfl⟩))))) (hline 0) k
  obtain ⟨-, -, g', hendB', -⟩ := ((hc.first.withId q.id).self p₁.id).at_end
    (t := t.withId q.id) hone hc.arity₁ (hidle.withNextId _) (scriptFrame p₁) rfl rfl rfl hend'
    hcallers' hip'
  rw [hend'] at hself
  have hself' : (Ending.unfinished g mB).Matches Q Eq (.unfinished g' mB) := hendB' ▸ hself
  have hmB : mB.Matches Q Eq mB := hself'.machine
  have hspare : ∀ b, Q.ids b b → b < p₁.id ∨ q.id ≤ b := by
    intro b hb
    by_contra hnot
    obtain ⟨hge, hlt⟩ := not_or.mp hnot
    have hnext : Q.ids b (b + 1) :=
      hQ.ids (.inr (.inr (.inl ⟨Nat.not_lt.mp hge, Nat.not_le.mp hlt, rfl⟩)))
    exact absurd ((hmB.store.oneToOne.ids hb hnext).mp rfl) (Nat.ne_of_lt (Nat.lt_succ_self b))
  refine ⟨N.restrict (fun b => b < p₁.id ∨ q.id ≤ b) Q, f', mB, hendB, hfunction, hipB, hsize,
    hfunctionA, hidleA, hidleB, ⟨fun hab => ?_, fun hcd => ?_⟩,
    hmatch.restrict hidleA hidleB hspare hmB, ?_, fun a b hab => hab.2⟩
  · exact ⟨hN.ids (.inl hab), .inl (Nat.lt_of_lt_of_le (hm.store.ids hab).2 hle₁)⟩
  · obtain rfl := hsame.cells hcd
    exact ⟨hN.cells hcd, hQ.cells hcd⟩
  · exact ⟨hN.ids (.inr (.inr ⟨rfl, rfl⟩)), .inr (Nat.le_refl _)⟩

end First

/-! ## The second source -/

/-- The outcomes are the same but for lines and for what stands for each other. -/
inductive Outcome.Resembles (M : Matching) : Outcome → Outcome → Prop where
  | value {v w : Value} (value : v.Matches M w) : Resembles M (.value v) (.value w)
  | raised {e e' : RuntimeError} (error : e.Matches (fun _ _ => True) e') :
      Resembles M (.error (.runtime e)) (.error (.runtime e'))
  | unfinished : Resembles M .unfinished .unfinished

theorem forall₂_trans {α β γ : Type} {R : α → β → Prop} {S : β → γ → Prop} {T : α → γ → Prop}
    {as : List α} {bs : List β} {cs : List γ} (h : List.Forall₂ R as bs)
    (h' : List.Forall₂ S bs cs) (hRS : ∀ a b c, R a b → S b c → T a c) :
    List.Forall₂ T as cs := by
  induction h generalizing cs with
  | nil =>
    cases h'
    exact .nil
  | cons hab _ ih =>
    cases h' with
    | cons hbc hrest => exact .cons (hRS _ _ _ hab hbc) (ih hrest)

section Endings

variable {M : Matching} {W : World → World → Prop} {p p' q q' : Function Value} {t : Typing p}
  {t' : Typing p'} {k k' : Nat} {e₁ e₂ e₃ e₄ : Ending World}

theorem Ending.Aligned.settle_eq (h : e₁.Aligned t q k e₂) :
    e₂.machine.settle = e₁.machine.settle := by
  cases h with
  | returned => rfl
  | raised _ settled => exact settled
  | unfinished aligned =>
    cases aligned with
    | outermost => rfl
    | called => rfl

/-- Three runs in a row: the code is moved, objects are matched, and the code is moved. -/
theorem agrees_of_aligned (h₁ : e₁.Aligned t q k e₂) (h : e₂.Matches M W e₃)
    (h₂ : e₃.Aligned t' q' k' e₄) :
    (Session.outcomeOf e₁).Resembles M (Session.outcomeOf e₄) ∧
      e₁.machine.settle.Matches M W e₄.machine.settle := by
  refine ⟨?_, by rw [← h₁.settle_eq, h₂.settle_eq]; exact Session.idle_matches h.machine⟩
  have htrans : ∀ {a b c : RuntimeError} {R : Nat → Nat → Prop}, a.Matches (fun _ _ => True) b →
      b.Matches R c → a.Matches (fun _ _ => True) c := by
    intro a b c R hab hbc
    exact ⟨hbc.fault.trans hab.fault, forall₂_trans hab.trace hbc.trace
      fun _ _ _ h h' => ⟨h'.1.trans h.1, trivial⟩⟩
  cases h₁ with
  | returned v m =>
    cases h with
    | returned value =>
      cases h₂ with
      | returned => exact .value value
  | raised error =>
    cases h with
    | raised error' =>
      cases h₂ with
      | raised error'' => exact .raised (htrans (htrans error error') error'')
  | unfinished aligned =>
    cases h with
    | unfinished =>
      cases h₂ with
      | unfinished => exact .unfinished

end Endings

section Second

variable {host : Host World} {n : Identity} {is js : List Item} {p₁ p₂ p q : Function Value}
  {mA mB : Machine World} {N : Matching} {f : Frame}

/-- From where the first source ends, the second one does the same in either session. -/
theorem Composes.second_part (hc : Composes n mA.store.nextId is js p₁ p₂ p q)
    (hhost : host.IsUniform Eq) (hidleA : mA.IsIdle) (hidleB : mB.IsIdle)
    (hm : mA.Matches N Eq mB) (hids : N.ids p₁.id q.id)
    (hspare : ∀ a b, N.ids a b → b < p₁.id ∨ q.id ≤ b)
    (hself : p₂.arity = 0 ∧ Nonempty (Typing p₂) ∧
      ∃ is₂, Relocates is₂ [] 0 0 p₂ { p₂ with id := p₁.id })
    (hfunction : f.function = q) (hip : f.ip = (codeOf is).length) (hsize : f.slots.size = 1)
    (limit : Nat) :
    ∃ P, N.Keeps P ∧
      (Session.outcomeOf (ending host limit (mA.withNextId (p₂.id + 1))
        (scriptFrame p₂))).Resembles P (Session.outcomeOf (ending host limit mB f)) ∧
      (ending host limit (mA.withNextId (p₂.id + 1)) (scriptFrame p₂)).machine.settle.Matches P Eq
        (ending host limit mB f).machine.settle := by
  obtain ⟨k₁, k₂, hp₁, hp₂, hq⟩ := hc.ids
  obtain ⟨harity, ⟨t₂⟩, is₂, hrelocates⟩ := hself
  obtain ⟨t⟩ := hc.typing
  have hq' : q.id = p₁.id + k₂ := hq.trans (congrArg (· + k₂) hp₁.symm)
  have hlt : ∀ i < k₂, p₁.id + i < q.id := fun i hi => hq' ▸ Nat.add_lt_add_left hi _
  have hmatch : (mA.withNextId (p₂.id + 1)).Matches
      (N.withoutLines.adding (Matching.Following mA.store.nextId p₁.id k₂)) Eq
      (mB.withNextId mB.store.nextId) := by
    refine (hm.withoutLines hidleA hidleB).adding Matching.Following.iff ?_ ?_ ?_ (Nat.le_refl _)
    · rintro a b ⟨i, hi, rfl, rfl⟩
      refine ⟨fun x hx => Nat.not_lt.mpr (Nat.le_add_right _ i) (hm.store.ids hx).1,
        fun x hx => ?_⟩
      rcases hspare _ _ hx with hbelow | habove
      · exact Nat.not_lt.mpr (Nat.le_add_right _ i) hbelow
      · exact Nat.not_le.mpr (hlt i hi) habove
    · rintro a b ⟨i, hi, rfl, rfl⟩
      refine ⟨?_, Nat.lt_trans (hlt i hi) (hm.store.ids hids).2⟩
      rw [hp₂]
      exact Nat.lt_succ_of_lt (Nat.add_lt_add_left hi _)
    · exact Nat.le_succ_of_le (hp₂ ▸ Nat.le_add_right _ _)
  have htwin := hc.twin (N.withoutLines.adding (Matching.Following mA.store.nextId p₁.id k₂))
    p₁.id q.id (fun _ _ => trivial)
    (fun i hi => .inr ⟨i, Nat.lt_of_add_lt_add_left (hp₂ ▸ hi), rfl, rfl⟩) (.inl hids)
  obtain ⟨P, hP, hruns⟩ := hmatch.ending hhost (scriptFrame_matches htwin) trivial limit
  have ha₁ : Aligned t₂ { p₂ with id := p₁.id } 0 (scriptFrame p₂) (mA.withNextId (p₂.id + 1))
      (scriptFrame { p₂ with id := p₁.id }) (mA.withNextId (p₂.id + 1)) :=
    aligned_scriptFrame harity rfl rfl rfl hidleA.callers hidleA.openCells
  have ha₂ : Aligned (t.withId q.id) q (codeOf is).length (scriptFrame { p with id := q.id }) mB f
      mB :=
    aligned_scriptFrame (p := { p with id := q.id }) hc.arity hfunction hip hsize hidleB.callers
      hidleB.openCells
  have hagrees := agrees_of_aligned (hrelocates.ending_aligned host ha₁ limit) hruns
    ((hc.second.withId q.id).ending_aligned host ha₂ limit)
  exact ⟨P, ⟨fun hab => hP.ids (.inl hab), fun hcd => hP.cells hcd⟩, hagrees.1, hagrees.2⟩

end Second

/-! ## Both sources -/

theorem Machine.IsIdle.settle_eq {m : Machine World} (h : m.IsIdle) : m.settle = m := by
  obtain ⟨callers, openCells, globals, store, world⟩ := m
  obtain ⟨hcallers, hopen⟩ := h
  obtain rfl : callers = [] := hcallers
  obtain rfl : openCells = #[] := hopen
  rfl

theorem Machine.IsIdle.closeFrame_eq {m : Machine World} (h : m.IsIdle) : m.closeFrame = m := by
  unfold closeFrame
  rw [h.openCells]
  rfl

namespace Session

/-- The machine that a source finds is the one before, with more identities handed out. -/
theorem loaded_eq {s : Session World} {source : String} {script : Function Value}
    (h : (s.compiled source).outcome = .ok script) :
    s.loaded source = s.machine.withNextId (script.id + 1) := by
  obtain ⟨-, hscript, hnext⟩ := compile_eq_ok h
  unfold loaded withNextId
  rw [show (s.compiled source).nextId = script.id + 1 from hnext.trans (hscript ▸ rfl)]

/-- The run of the source comes to the end of its script, which does not end with a return of the
source: after `k` steps no call is active, and all that is left to do is to give back `nil`. -/
structure ReachesEnd (s : Session World) (source : String) (script : Function Value) (k : Nat) :
    Prop where
  implicit : (compileTokens s.machine.store.nextId (scan source)).builder.lastOp ≠ some .return
  reached : ∃ f m, ending s.host k (s.loaded source) (scriptFrame script) = .unfinished f m ∧
    m.callers = [] ∧ f.ip + 2 = script.chunk.code.size

/-- Whatever a session was asked for, its machine is the same in itself. -/
theorem exists_isIdentity {host : Host World} (hhost : host.IsUniform Eq) (world : World)
    (switches : Switches) (level : LogLevel) {history : List Operation}
    (hhistory : ∀ op ∈ history, op.Matches .empty op) :
    ∃ M : Matching, M.IsIdentity ∧ M.lines = Eq ∧
      ((start host world switches level).performAll history).2.machine.Matches M Eq
        ((start host world switches level).performAll history).2.machine := by
  have hstart : (start host world switches level).Alike .empty host Eq
      (start host world switches level) := {
    lines := rfl
    left := rfl
    right := rfl
    machine := {
      callers := .nil
      openCells := .nil
      globals := fun _ => .none
      store := ⟨⟨False.elim, False.elim⟩, False.elim, False.elim, False.elim⟩
      world := rfl }
    idle := ⟨rfl, rfl⟩
    idle' := ⟨rfl, rfl⟩ }
  obtain ⟨M, -, -, hafter⟩ := hstart.performAll hhost (List.forall₂_same.mpr hhistory)
  obtain ⟨N, hN, hlines, hmatch⟩ :=
    hafter.machine.exists_isIdentity ⟨hafter.idle.1, hafter.idle.2⟩
  exact ⟨N, hN, hlines.trans hafter.lines, hmatch⟩

end Session

/-- A session of two sources is like one of both on one another.  If the run of the first source
comes to its end, then the second source gives the same value or the same error, but for lines, or
goes on for as long, as both sources in one; and they leave the same globals, and have done the
same to their surroundings.  Objects that existed before stand for themselves. -/
theorem interpret_joined {host : Host World} (hhost : host.IsUniform Eq) (world : World)
    (switches : Switches) (level : LogLevel) (history : List Operation)
    (hhistory : ∀ op ∈ history, op.Matches .empty op) {s₁ s₂ : String} (hends : EndsBefore s₁)
    (hstarts : StartsAnew s₂) {p₁ p₂ q : Function Value} {k limit₁ : Nat} :
    let s := ((Session.start host world switches level).performAll history).2
    (s.compiled s₁).outcome = .ok p₁ →
    ((s.interpret limit₁ s₁).2.compiled s₂).outcome = .ok p₂ →
    (s.compiled (s₁ ++ "\n" ++ s₂)).outcome = .ok q →
    s.ReachesEnd s₁ p₁ k → k + 2 ≤ limit₁ →
    (s.interpret limit₁ s₁).1.outcome = .value .nil ∧
    ∃ M : Matching, M.IsIdentity ∧ s.machine.globals.Matches M s.machine.globals ∧
      s.machine.store.Matches M s.machine.store ∧
      ∀ limit, ∃ N, M.Keeps N ∧
        let after := (s.interpret limit₁ s₁).2.interpret limit s₂
        let joined := s.interpret (k + limit) (s₁ ++ "\n" ++ s₂)
        after.1.outcome.Resembles N joined.1.outcome ∧
          after.2.machine.globals.Matches N joined.2.machine.globals ∧
          after.2.machine.store.Matches N joined.2.machine.store ∧
          after.2.machine.world = joined.2.machine.world := by
  intro s h₁ h₂ h hreaches hlimit
  have hidle : s.machine.IsIdle := by
    have hs := Session.IsIdle.performAll (s := .start host world switches level) ⟨rfl, rfl⟩ history
    exact ⟨hs.1, hs.2⟩
  have hsame : s.host = host := Session.host_performAll _ history
  obtain ⟨M, hM, hlines, hm⟩ := Session.exists_isIdentity hhost world switches level hhistory
  obtain ⟨f, mA, hend, hcallers, hip⟩ := hreaches.reached
  rw [Session.loaded_eq h₁, hsame] at hend
  obtain ⟨is, js, p, hc⟩ := exists_composes h₁ h₂ h hends hstarts hreaches.implicit
  have hip' : f.ip = (codeOf is).length := by
    have hsize := hc.first.holds_end.2.2
    omega
  obtain ⟨N, f', mB, hendB, hfunction, hipB, hsizeB, hfunctionA, hidleA, hidleB, hMN, hmatch, hids,
    hspare⟩ := hc.first_part hhost hidle hlines hM hm hend hcallers hip'
  obtain ⟨d, rfl⟩ : ∃ d, limit₁ = k + (d + 2) := ⟨limit₁ - k - 2, by omega⟩
  have hreturned : ending s.host (k + (d + 2)) (s.loaded s₁) (scriptFrame p₁) =
      .returned .nil mA := by
    rw [Session.loaded_eq h₁, hsame, ending_add hend,
      hc.first.ending_of_end hfunctionA hip' hcallers, hidleA.closeFrame_eq]
  obtain ⟨houtcome, hmachine⟩ := Session.interpret_eq h₁ (k + (d + 2))
  rw [hreturned] at houtcome hmachine
  replace hmachine : (s.interpret (k + (d + 2)) s₁).2.machine = mA :=
    hmachine.trans hidleA.settle_eq
  refine ⟨houtcome, M, hM, hm.globals, hm.store, fun limit => ?_⟩
  have hhost₂ : (s.interpret (k + (d + 2)) s₁).2.host = host :=
    (Session.host_interpret ..).trans hsame
  obtain ⟨houtcome₂, hmachine₂⟩ := Session.interpret_eq h₂ limit
  rw [hhost₂, Session.loaded_eq h₂, hmachine] at houtcome₂ hmachine₂
  obtain ⟨houtcome', hmachine'⟩ := Session.interpret_eq h (k + limit)
  rw [hsame, Session.loaded_eq h, ending_add hendB] at houtcome' hmachine'
  rw [hmachine] at hc
  obtain ⟨P, hNP, hagrees, hafter⟩ := hc.second_part hhost hidleA hidleB hmatch hids hspare
    (exists_relocates_self h₂ p₁.id) hfunction hipB hsizeB limit
  refine ⟨P, hMN.trans hNP, ?_⟩
  dsimp only
  rw [houtcome₂, hmachine₂, houtcome', hmachine']
  exact ⟨hagrees, hafter.globals, hafter.store, hafter.world⟩

/-- The natives of a console are determined by the console and their arguments. -/
theorem Console.isUniform_host_eq : Console.host.IsUniform Eq := by
  have hsame : Console.WritesLike "" "" = Eq := by
    funext c c'
    obtain ⟨written, seconds⟩ := c
    obtain ⟨written', seconds'⟩ := c'
    refine propext ⟨?_, fun h => h ▸ ⟨rfl, written, by simp, by simp⟩⟩
    rintro ⟨hseconds, text, hwritten, hwritten'⟩
    rw [String.empty_append] at hwritten hwritten'
    exact (Console.mk.injEq ..).mpr ⟨hwritten.trans hwritten'.symm, hseconds.symm⟩
  have huniform : Console.host.IsUniform (Console.WritesLike "" "") :=
    @Console.isUniform_host "" ""
  rwa [hsame] at huniform

/-- A function that gives itself, by its name. -/
def itself : Function Value :=
  ⟨0, some "f", 0, 0, ⟨#[7, 0, 27], #[1, 1, 1], #[.string "f"]⟩⟩

/-- A script that defines the function. -/
def definesItself : Function Value :=
  ⟨1, none, 0, 0, ⟨#[26, 1, 8, 0, 1, 27], #[1, 1, 1, 1, 1, 1],
    #[.string "f", .function itself]⟩⟩

/-- A script that calls the function. -/
def callsItself : Function Value :=
  ⟨3, none, 0, 0, ⟨#[7, 0, 25, 0, 27], #[1, 1, 1, 1, 1], #[.string "f"]⟩⟩

/-- A script that defines the function on one line and calls it on the next one. -/
def definesAndCallsItself : Function Value :=
  ⟨1, none, 0, 0, ⟨#[26, 1, 8, 0, 7, 2, 25, 0, 27], #[1, 1, 1, 1, 2, 2, 2, 2, 2],
    #[.string "f", .function itself, .string "f"]⟩⟩

/-- The source of the first script. -/
def definesItselfSource : String := "fn f() \x7b return f \x7d"

/-- The source of the second script. -/
def callsItselfSource : String := "return f()"

theorem scan_definesItselfSource : scan definesItselfSource =
    [⟨.fnWord, "fn", 1⟩, ⟨.identifier, "f", 1⟩, ⟨.leftParen, "(", 1⟩, ⟨.rightParen, ")", 1⟩,
      ⟨.leftBrace, "\x7b", 1⟩, ⟨.returnWord, "return", 1⟩, ⟨.identifier, "f", 1⟩,
      ⟨.rightBrace, "\x7d", 1⟩, .endAt 1] := by decide +kernel

theorem scan_callsItselfSource : scan callsItselfSource =
    [⟨.returnWord, "return", 1⟩, ⟨.identifier, "f", 1⟩, ⟨.leftParen, "(", 1⟩,
      ⟨.rightParen, ")", 1⟩, .endAt 1] := by decide +kernel

theorem compile_definesItself :
    (compile 0 definesItselfSource).outcome = .ok definesItself ∧
      (compileTokens 0 (scan definesItselfSource)).builder.lastOp ≠ some .return := by
  unfold compile
  rw [scan_definesItselfSource]
  exact ⟨rfl, by decide +kernel⟩

theorem compile_callsItself : (compile 3 callsItselfSource).outcome = .ok callsItself := by
  unfold compile
  rw [scan_callsItselfSource]
  rfl

theorem compile_definesAndCallsItself :
    (compile 0 (definesItselfSource ++ "\n" ++ callsItselfSource)).outcome =
      .ok definesAndCallsItself := by
  have hscan : scan (definesItselfSource ++ "\n" ++ callsItselfSource) =
      [⟨.fnWord, "fn", 1⟩, ⟨.identifier, "f", 1⟩, ⟨.leftParen, "(", 1⟩, ⟨.rightParen, ")", 1⟩,
        ⟨.leftBrace, "\x7b", 1⟩, ⟨.returnWord, "return", 1⟩, ⟨.identifier, "f", 1⟩,
        ⟨.rightBrace, "\x7d", 1⟩, ⟨.returnWord, "return", 2⟩, ⟨.identifier, "f", 2⟩,
        ⟨.leftParen, "(", 2⟩, ⟨.rightParen, ")", 2⟩, .endAt 2] := by decide +kernel
  unfold compile
  rw [hscan]
  rfl

/-- The run of the first script comes to its end in two steps. -/
theorem reachesEnd_definesItself :
    (Session.start Console.host {} {} .off).ReachesEnd definesItselfSource definesItself 2 where
  implicit := compile_definesItself.2
  reached := ⟨_, _, rfl, rfl, rfl⟩

/-- A function that is defined on one line and called on the next one. -/
theorem interpret_joined_call :
    let s := Session.start Console.host {} {} .off
    EndsBefore definesItselfSource ∧ StartsAnew callsItselfSource ∧
      s.ReachesEnd definesItselfSource definesItself 2 ∧
      ∃ M : Matching, M.IsIdentity ∧ ∃ N, M.Keeps N ∧
        let after := (s.interpret 4 definesItselfSource).2.interpret 6 callsItselfSource
        let joined := s.interpret (2 + 6) (definesItselfSource ++ "\n" ++ callsItselfSource)
        after.1.outcome.Resembles N joined.1.outcome ∧
          after.2.machine.globals.Matches N joined.2.machine.globals ∧
          after.2.machine.world = joined.2.machine.world := by
  have hends : EndsBefore definesItselfSource := by
    unfold EndsBefore
    rw [scan_definesItselfSource]
    rintro t ⟨⟩
    decide
  have hstarts : StartsAnew callsItselfSource := by
    unfold StartsAnew
    rw [scan_callsItselfSource]
    rintro t ⟨⟩
    rfl
  have h₁ : ((Session.start Console.host {} {} .off).compiled definesItselfSource).outcome =
      .ok definesItself := compile_definesItself.1
  have h : ((Session.start Console.host {} {} .off).compiled
      (definesItselfSource ++ "\n" ++ callsItselfSource)).outcome = .ok definesAndCallsItself :=
    compile_definesAndCallsItself
  have hnext : ((Session.start Console.host {} {} .off).interpret 4
      definesItselfSource).2.machine.store.nextId = 3 := by decide +kernel
  have h₂ : ((((Session.start Console.host {} {} .off).interpret 4
      definesItselfSource).2).compiled callsItselfSource).outcome = .ok callsItself := by
    unfold Session.compiled
    rw [hnext]
    exact compile_callsItself
  obtain ⟨-, M, hM, -, -, hafter⟩ := interpret_joined Console.isUniform_host_eq {} {} .off []
    (fun _ h => nomatch h) hends hstarts h₁ h₂ h reachesEnd_definesItself (Nat.le_refl 4)
  obtain ⟨N, hMN, hagrees, hglobals, -, hworld⟩ := hafter 6
  exact ⟨hends, hstarts, reachesEnd_definesItself, M, hM, N, hMN, hagrees, hglobals, hworld⟩

end ScriptEngine
