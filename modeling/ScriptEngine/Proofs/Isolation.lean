import ScriptEngine.Proofs.Abreast.Program
import ScriptEngine.Proofs.Machine.Abreast
import ScriptEngine.Proofs.Session
set_option autoImplicit false

/-!
# Sessions: what survives a program

A program leaves nothing behind but globals, with the cells that they hold on to, and what
it did to its surroundings.  So two sessions with the same globals go on alike, whatever
was asked of them before and however it ended (`only_globals_survive`).
-/

namespace ScriptEngine

open Machine

variable {World : Type}

/-! ## Operations -/

/-- Code from outside.  The objects in it are made when it is brought into a session. -/
abbrev Loader : Type := Store → Function Value × Store

/-- What can be asked of a session. -/
inductive Operation where
  | interpret (limit : Nat) (source : String)
  | run (limit : Nat) (load : Loader)
  | defineNative (s : Signature)
  | reset

namespace Session

/-- Does what is asked.  Gives the outcome, if a program was run, and the session after it. -/
def perform (s : Session World) : Operation → Option Outcome × Session World
  | .interpret limit source =>
      let (report, s) := s.interpret limit source
      (some report.outcome, s)
  | .run limit load =>
      let (script, store) := load s.machine.store
      let (report, s) := { s with machine := { s.machine with store } }.run limit script
      (some report.outcome, s)
  | .defineNative n => (none, { s with machine := s.machine.defineNative n })
  | .reset => (none, s.reset)

/-- Does one thing after the other. -/
def performAll (s : Session World) : List Operation → List (Option Outcome) × Session World
  | [] => ([], s)
  | op :: ops =>
      let (outcome, s) := s.perform op
      let (outcomes, s) := s.performAll ops
      (outcome :: outcomes, s)

/-- No call is active, and no cell is open. -/
def IsIdle (s : Session World) : Prop := s.machine.callers = [] ∧ s.machine.openCells = #[]

theorem IsIdle.perform {s : Session World} (h : s.IsIdle) (op : Operation) :
    (s.perform op).2.IsIdle := by
  cases op with
  | interpret limit source =>
    unfold Session.perform interpret
    dsimp only
    split
    · exact h
    · exact ⟨rfl, rfl⟩
  | run limit load => exact ⟨rfl, rfl⟩
  | defineNative n => exact h
  | reset => exact ⟨rfl, rfl⟩

theorem IsIdle.performAll {s : Session World} (h : s.IsIdle) (ops : List Operation) :
    (s.performAll ops).2.IsIdle := by
  induction ops generalizing s with
  | nil => exact h
  | cons op ops ih => exact ih (h.perform op)

theorem host_perform (s : Session World) (op : Operation) : (s.perform op).2.host = s.host := by
  cases op with
  | interpret limit source =>
    unfold Session.perform interpret
    dsimp only
    split <;> rfl
  | _ => rfl

theorem host_performAll (s : Session World) (ops : List Operation) :
    (s.performAll ops).2.host = s.host := by
  induction ops generalizing s with
  | nil => rfl
  | cons op ops ih => exact (ih _).trans (s.host_perform op)

theorem install_eq_performAll (s : Session World) (natives : List Signature) :
    s.install natives = (s.performAll (natives.map .defineNative)).2 := by
  induction natives generalizing s with
  | nil => rfl
  | cons n natives ih => exact ih (s.perform (.defineNative n)).2

end Session

/-! ## Compiling beside each other -/

/-- No objects match. -/
def Matching.empty : Matching := ⟨fun _ _ => False, fun _ _ => False, Eq⟩

/-- The `k` objects from `first` and `first'` on match as well. -/
def Matching.withRange (M : Matching) (first first' : Identity) (k : Nat) : Matching :=
  { M with ids := fun a b => M.ids a b ∨ ∃ i < k, a = first + i ∧ b = first' + i }

section Stores

variable {M : Matching} {s s' : Store}

theorem Store.Matches.withRange (h : s.Matches M s') (k : Nat) :
    { s with nextId := s.nextId + k }.Matches (M.withRange s.nextId s'.nextId k)
      { s' with nextId := s'.nextId + k } where
  oneToOne := by
    refine ⟨?_, h.oneToOne.cells⟩
    have hne : ∀ {a b} (i : Nat), M.ids a b → a ≠ s.nextId + i ∧ b ≠ s'.nextId + i :=
      fun i hab => ⟨Nat.ne_of_lt (Nat.lt_add_right i (h.ids hab).1),
        Nat.ne_of_lt (Nat.lt_add_right i (h.ids hab).2)⟩
    rintro a b a' b' (hab | ⟨i, -, rfl, rfl⟩) (hab' | ⟨j, -, rfl, rfl⟩)
    · exact h.oneToOne.ids hab hab'
    · exact iff_of_false (hne j hab).1 (hne j hab).2
    · exact iff_of_false (hne i hab').1.symm (hne i hab').2.symm
    · exact Nat.add_left_cancel_iff.trans Nat.add_left_cancel_iff.symm
  ids := by
    rintro a b (hab | ⟨i, hi, rfl, rfl⟩)
    · exact ⟨Nat.lt_add_right k (h.ids hab).1, Nat.lt_add_right k (h.ids hab).2⟩
    · exact ⟨Nat.add_lt_add_left hi _, Nat.add_lt_add_left hi _⟩
  cells := h.cells
  contents hcd := (h.contents hcd).mono ⟨.inl, id, id⟩

/-- A source is compiled with the same outcome, whichever objects there are. -/
theorem Store.Matches.compile (h : s.Matches M s') (hline : ∀ i, M.lines i i) (source : String) :
    ∃ N, M.Widens N ∧
      (ScriptEngine.compile s.nextId source).Matches N (ScriptEngine.compile s'.nextId source) ∧
      { s with nextId := (ScriptEngine.compile s.nextId source).nextId }.Matches N
        { s' with nextId := (ScriptEngine.compile s'.nextId source).nextId } := by
  let σ : Compile.Latitude := ⟨M.lines, s.nextId, s'.nextId, true, [], fun _ => rfl,
    Compile.standsApart_of_nil⟩
  have htokens : List.Forall₂ (Token.Matches σ.lines) (scan source) (scan source) :=
    List.forall₂_same.mpr fun t _ => ⟨rfl, rfl, hline t.line⟩
  obtain ⟨⟨k, hk, hk'⟩, hmatch⟩ :=
    Compile.matches_ofState_compileTokens (σ := σ) rfl (hline 1) htokens
  have hgrows : (σ.matching (ScriptEngine.compile s.nextId source).nextId).Grows
      (M.withRange s.nextId s'.nextId k) := by
    refine ⟨?_, False.elim, id⟩
    rintro a b ⟨hlt, i, rfl, rfl⟩
    exact .inr ⟨i, Nat.lt_of_add_lt_add_left (Nat.lt_of_lt_of_eq hlt hk), rfl, rfl⟩
  refine ⟨M.withRange s.nextId s'.nextId k, ⟨⟨.inl, id, id⟩, rfl⟩, hmatch.mono hgrows, ?_⟩
  rw [show (ScriptEngine.compile s.nextId source).nextId = s.nextId + k from hk,
    show (ScriptEngine.compile s'.nextId source).nextId = s'.nextId + k from hk']
  exact h.withRange k

end Stores

/-! ## Sessions that go on alike -/

/-- The outcomes are the same but for what stands for each other. -/
inductive Outcome.Matches (M : Matching) : Outcome → Outcome → Prop where
  | value {v w : Value} (value : v.Matches M w) : Matches M (.value v) (.value w)
  | error (e : ScriptError) : Matches M (.error e) (.error e)
  | unfinished : Matches M .unfinished .unfinished

/-- The same code is brought into two sessions whose objects match, and is built from objects
that match. -/
def Loader.Matches (M : Matching) (load load' : Loader) : Prop :=
  ∀ {N : Matching} {s s' : Store}, M.Widens N → s.Matches N s' →
    ∃ P, N.Widens P ∧ (load s).1.Matches P (load' s').1 ∧ (load s).2.Matches P (load' s').2

/-- The same is asked of two sessions whose objects match. -/
inductive Operation.Matches (M : Matching) : Operation → Operation → Prop where
  | interpret (limit : Nat) (source : String) :
      Matches M (.interpret limit source) (.interpret limit source)
  | run (limit : Nat) {load load' : Loader} (loads : Loader.Matches M load load') :
      Matches M (.run limit load) (.run limit load')
  | defineNative (s : Signature) : Matches M (.defineNative s) (.defineNative s)
  | reset : Matches M .reset .reset

theorem Operation.Matches.mono {M N : Matching} {op op' : Operation} (h : op.Matches M op')
    (hMN : M.Widens N) : op.Matches N op' := by
  cases h with
  | interpret limit source => exact .interpret limit source
  | run limit loads => exact .run limit fun hNP => loads (hMN.trans hNP)
  | defineNative s => exact .defineNative s
  | reset => exact .reset

theorem Outcome.Matches.mono {M N : Matching} {o o' : Outcome} (h : o.Matches M o')
    (hMN : M.Grows N) : o.Matches N o' := by
  cases h with
  | value h => exact .value (h.mono hMN)
  | error e => exact .error e
  | unfinished => exact .unfinished

/-- The errors are the same if lines do not differ. -/
theorem RuntimeError.Matches.eq {e e' : RuntimeError} (h : e.Matches Eq e') : e' = e := by
  obtain ⟨fault, trace⟩ := e
  obtain ⟨fault', trace'⟩ := e'
  obtain ⟨hfault, htrace⟩ := h
  have hsame : List.Forall₂ Eq trace trace' := htrace.imp fun t t' ht => by
    obtain ⟨function, line⟩ := t
    obtain ⟨function', line'⟩ := t'
    exact (TraceLine.mk.injEq ..).mpr ⟨ht.1.symm, ht.2⟩
  rw [List.forall₂_eq_eq_eq] at hsame
  exact (RuntimeError.mk.injEq ..).mpr ⟨hfault, hsame.symm⟩

theorem Diagnostic.Matches.eq {d d' : Diagnostic} (h : d.Matches Eq d') : d' = d := by
  obtain ⟨line, site, complaint⟩ := d
  obtain ⟨line', site', complaint'⟩ := d'
  exact (Diagnostic.mk.injEq ..).mpr ⟨h.line.symm, h.site, h.complaint⟩

namespace Session

section Alike

variable {M N : Matching} {W : World → World → Prop} {host : Host World} {s s' : Session World}

/-- The sessions are idle and their machines match. -/
structure Alike (M : Matching) (host : Host World) (W : World → World → Prop)
    (s s' : Session World) : Prop where
  lines : M.lines = Eq
  left : s.host = host
  right : s'.host = host
  machine : s.machine.Matches M W s'.machine
  idle : s.IsIdle
  idle' : s'.IsIdle

/-- What two operations lead to is the same but for what stands for each other. -/
def AnswerAlike (M : Matching) (host : Host World) (W : World → World → Prop)
    (r r' : Option Outcome × Session World) : Prop :=
  ∃ N, M.Widens N ∧ Option.Rel (Outcome.Matches N) r.1 r'.1 ∧ r.2.Alike N host W r'.2

theorem outcomeOf_matches {e e' : Ending World} (h : e.Matches M W e') (hlines : M.lines = Eq) :
    (outcomeOf e).Matches M (outcomeOf e') := by
  cases h with
  | returned value _ => exact .value value
  | @raised e e' _ _ error _ =>
    rw [hlines] at error
    obtain rfl := error.eq
    exact .error _
  | unfinished _ _ => exact .unfinished

theorem idle_matches {m m' : Machine World} (h : m.Matches M W m') :
    m.settle.Matches M W m'.settle :=
  { h with callers := .nil, openCells := .nil }

/-- Scripts that match are run with the same outcome. -/
theorem Alike.run (hhost : host.IsUniform W) (hlines : M.lines = Eq) {m m' : Machine World}
    (hs : s.host = host) (hs' : s'.host = host) (hm : m.Matches M W m') (limit : Nat)
    {script script' : Function Value} (hscript : script.Matches M script') :
    ∃ N, M.Widens N ∧
      ({ s with machine := m }.run limit script).1.outcome.Matches N
        ({ s' with machine := m' }.run limit script').1.outcome ∧
      ({ s with machine := m }.run limit script).2.Alike N host W
        ({ s' with machine := m' }.run limit script').2 := by
  have hframe : (scriptFrame script).Matches M (scriptFrame script') :=
    ⟨hscript, .nil, rfl, .cons hscript .nil⟩
  obtain ⟨N, hMN, hend⟩ := hm.ending hhost hframe (by rw [hlines]) limit
  have hlinesN : N.lines = Eq := hMN.sameLines.trans hlines
  refine ⟨N, hMN, ?_, hlinesN, hs, hs', ?_, ⟨rfl, rfl⟩, ⟨rfl, rfl⟩⟩
  · unfold Session.run
    dsimp only
    rw [ending_runFor, ending_runFor, hs, hs']
    exact outcomeOf_matches hend hlinesN
  · unfold Session.run
    dsimp only
    rw [ending_runFor, ending_runFor, hs, hs']
    exact idle_matches hend.machine

/-- The same operation is answered in the same way, and leads to sessions that match again. -/
theorem Alike.perform (hhost : host.IsUniform W) (h : s.Alike M host W s') {op op' : Operation}
    (hop : op.Matches M op') : AnswerAlike M host W (s.perform op) (s'.perform op') := by
  have hwithStore : ∀ {N : Matching} {store store' : Store}, M.Widens N →
      store.Matches N store' →
      { s.machine with store }.Matches N W { s'.machine with store := store' } :=
    fun hMN hstore => h.machine.withStore hMN hstore (h.machine.openCells.mono hMN.toGrows)
  cases hop with
  | interpret limit source =>
    obtain ⟨N, hMN, hcompiled, hstore⟩ :=
      h.machine.store.compile (fun i => by rw [h.lines]) source
    have hlinesN : N.lines = Eq := hMN.sameLines.trans h.lines
    have hmachine := hwithStore hMN hstore
    unfold Session.perform Session.interpret
    dsimp only
    unfold Compilation.Matches at hcompiled
    generalize ScriptEngine.compile s.machine.store.nextId source = c,
      ScriptEngine.compile s'.machine.store.nextId source = c' at hcompiled hstore hmachine
    split at hcompiled
    · next script script' hok hok' =>
      rw [hok, hok']
      obtain ⟨P, hNP, houtcome, halike⟩ :=
        Alike.run hhost hlinesN h.left h.right hmachine limit hcompiled
      exact ⟨P, hMN.trans hNP, .some houtcome, halike⟩
    · next ds ds' herror herror' =>
      rw [herror, herror']
      rw [hlinesN] at hcompiled
      obtain rfl : ds' = ds := by
        refine Array.toList_inj.mp ?_
        rw [← List.forall₂_eq_eq_eq]
        exact (hcompiled.flip).imp fun _ _ hd => hd.eq
      exact ⟨N, hMN, .some (.error _), hlinesN, h.left, h.right, hmachine, h.idle, h.idle'⟩
    · exact hcompiled.elim
  | run limit loads =>
    obtain ⟨N, hMN, hscript, hstore⟩ := loads (.refl M) h.machine.store
    obtain ⟨P, hNP, houtcome, halike⟩ :=
      Alike.run hhost (hMN.sameLines.trans h.lines) h.left h.right (hwithStore hMN hstore) limit
        hscript
    exact ⟨P, hMN.trans hNP, .some houtcome, halike⟩
  | defineNative n =>
    have hwide := M.widens_withIds s.machine.store.nextId s'.machine.store.nextId
    have hmachine := hwithStore hwide h.machine.store.freshId
    have hnative : (Value.native ⟨s.machine.store.nextId, n.1, n.2⟩).Matches
        (M.withIds s.machine.store.nextId s'.machine.store.nextId)
        (.native ⟨s'.machine.store.nextId, n.1, n.2⟩) := .native (.inr ⟨rfl, rfl⟩) rfl rfl
    exact ⟨_, hwide, .none, h.lines, h.left, h.right,
      { hmachine with globals := hmachine.globals.define n.1 hnative }, h.idle, h.idle'⟩
  | reset =>
    exact ⟨M, .refl M, .none, h.lines, h.left, h.right,
      { idle_matches h.machine with globals := fun _ => .none }, ⟨rfl, rfl⟩, ⟨rfl, rfl⟩⟩

/-- The same operations are answered in the same way, one after the other. -/
theorem Alike.performAll (hhost : host.IsUniform W) {M : Matching} {s s' : Session World}
    (h : s.Alike M host W s') {ops ops' : List Operation}
    (hops : List.Forall₂ (Operation.Matches M) ops ops') :
    ∃ N, M.Widens N ∧
      List.Forall₂ (Option.Rel (Outcome.Matches N)) (s.performAll ops).1 (s'.performAll ops').1 ∧
      (s.performAll ops).2.Alike N host W (s'.performAll ops').2 := by
  induction ops generalizing M s s' ops' with
  | nil =>
    cases hops
    exact ⟨M, .refl M, .nil, h⟩
  | cons op ops ih =>
    cases hops with
    | cons hop hrest =>
      obtain ⟨N, hMN, houtcome, halike⟩ := h.perform hhost hop
      obtain ⟨P, hNP, houtcomes, hafter⟩ := ih halike (hrest.imp fun _ _ hop => hop.mono hMN)
      have hfirst := rel_imp houtcome fun _ _ ho => ho.mono hNP.toGrows
      exact ⟨P, hMN.trans hNP, .cons hfirst houtcomes, hafter⟩

/-- Whatever is asked of the sessions from now on, they give the same answers, do the same to
their surroundings, and come to have the same globals again. -/
def BehavesLike (M : Matching) (W : World → World → Prop) (s s' : Session World) : Prop :=
  ∀ ops ops', List.Forall₂ (Operation.Matches M) ops ops' → ∃ N, M.Widens N ∧
    List.Forall₂ (Option.Rel (Outcome.Matches N)) (s.performAll ops).1 (s'.performAll ops').1 ∧
    (s.performAll ops).2.machine.globals.Matches N (s'.performAll ops').2.machine.globals ∧
    (s.performAll ops).2.machine.store.Matches N (s'.performAll ops').2.machine.store ∧
    W (s.performAll ops).2.machine.world (s'.performAll ops').2.machine.world

theorem Alike.behavesLike (hhost : host.IsUniform W) (h : s.Alike M host W s') :
    s.BehavesLike M W s' := fun ops ops' hops => by
  obtain ⟨N, hMN, houtcomes, hafter⟩ := h.performAll hhost hops
  exact ⟨N, hMN, houtcomes, hafter.machine.globals, hafter.machine.store, hafter.machine.world⟩

/-- With natives made anew, a session that was reset is like one that has just been started. -/
theorem Alike.install (hhost : host.IsUniform W) (h : s.Alike M host W s')
    (natives : List Signature) :
    ∃ N, M.Widens N ∧ (s.install natives).Alike N host W (s'.install natives) := by
  rw [install_eq_performAll, install_eq_performAll]
  have hsame : List.Forall₂ (Operation.Matches M) (natives.map .defineNative)
      (natives.map .defineNative) :=
    List.forall₂_same.mpr fun op hop => by
      obtain ⟨n, -, rfl⟩ := List.mem_map.mp hop
      exact .defineNative n
  obtain ⟨N, hMN, -, hafter⟩ := h.performAll hhost hsame
  exact ⟨N, hMN, hafter⟩

theorem alike_reset (hhost : s.host = host) {world : World} (hworld : W s.machine.world world)
    (switches : Switches) (level : LogLevel) :
    s.reset.Alike .empty host W (start host world switches level) where
  lines := rfl
  left := hhost
  right := rfl
  machine := {
    callers := .nil
    openCells := .nil
    globals := fun _ => .none
    store := ⟨⟨False.elim, False.elim⟩, False.elim, False.elim, False.elim⟩
    world := hworld }
  idle := ⟨rfl, rfl⟩
  idle' := ⟨rfl, rfl⟩

end Alike

/-- A source that is refused changes nothing that a program could find out. -/
theorem interpret_of_refused {s : Session World} {source : String}
    {diagnostics : Array Diagnostic} (h : (s.compiled source).outcome = .error diagnostics)
    (limit : Nat) :
    (s.interpret limit source).1.outcome = .error (.compile diagnostics) ∧
      (s.interpret limit source).2.machine.globals = s.machine.globals ∧
      (s.interpret limit source).2.machine.store.cells = s.machine.store.cells ∧
      (s.interpret limit source).2.machine.world = s.machine.world ∧
      (s.interpret limit source).2.profile = s.profile := by
  unfold compiled at h
  unfold interpret
  dsimp only
  rw [h]
  exact ⟨rfl, rfl, rfl, rfl, rfl⟩

end Session

/-! ## The console -/

namespace Console

/-- Both consoles show the same time, and the same has been written to them since they held
`before` and `before'`. -/
def WritesLike (before before' : String) (c c' : Console) : Prop :=
  c'.seconds = c.seconds ∧
    ∃ text, c.written = before ++ text ∧ c'.written = before' ++ text

variable {M : Matching} {before before' : String} {c c' : Console}

theorem argument_matches (name : String) {arguments arguments' : List Value}
    (h : List.Forall₂ (Value.Matches M) arguments arguments') :
    EndAlike (Value.Matches M) (argument name arguments) (argument name arguments') := by
  cases h with
  | nil => exact .error _
  | cons hvw _ => exact .ok hvw

theorem assert_matches {v w : Value} (h : v.Matches M w) :
    EndAlike (Value.Matches M) (assert v) (assert w) := by
  cases h with
  | boolean b =>
    cases b with
    | true => exact .ok (.boolean true)
    | false => exact .error _
  | nil => exact .error _
  | _ => exact .ok (.boolean true)

theorem WritesLike.writeLine (hc : WritesLike before before' c c') (line : String) :
    WritesLike before before' (c.writeLine line) (c'.writeLine line) := by
  obtain ⟨hseconds, text, hwritten, hwritten'⟩ := hc
  refine ⟨hseconds, text ++ line ++ "\n", ?_, ?_⟩ <;>
    simp only [Console.writeLine, hwritten, hwritten', String.append_assoc]

/-- The natives of a console see of their arguments no more than text and type. -/
theorem answer_matches (hc : WritesLike before before' c c') (name : String)
    {arguments arguments' : List Value}
    (h : List.Forall₂ (Value.Matches M) arguments arguments') :
    EndAlike (Value.Matches M) (c.answer name arguments).1 (c'.answer name arguments').1 ∧
      WritesLike before before' (c.answer name arguments).2 (c'.answer name arguments').2 := by
  have hargument := argument_matches name h
  unfold answer
  split
  · generalize argument "print" arguments = x, argument "print" arguments' = y at hargument
    cases hargument with
    | ok hvw =>
      dsimp only
      rw [hvw.toText_eq]
      exact ⟨.ok .nil, hc.writeLine _⟩
    | error message => exact ⟨.error _, hc⟩
  · exact ⟨hargument.bind fun _ _ => assert_matches, hc⟩
  · refine ⟨hargument.map fun v w hvw => ?_, hc⟩
    rw [hvw.typeName_eq]
    exact .string _
  · rw [hc.1]
    exact ⟨.ok (.number _), hc⟩
  · exact ⟨.error _, hc⟩

/-- A console treats objects that match alike. -/
theorem isUniform_host (before before' : String) :
    host.IsUniform (WritesLike before before') := by
  intro M n n' arguments arguments' s s' c c' hn harguments hs hc
  have hname : n'.name = n.name := by
    cases hn
    exact Eq.symm ‹_›
  obtain ⟨hresult, hworld⟩ := answer_matches hc n.name harguments
  refine ⟨M, .refl M, ?_⟩
  unfold host
  dsimp only
  rw [hname]
  exact ⟨hresult, hs, hworld⟩

end Console

/-! ## Programs after one another -/

/-- Nothing but globals survives a program.  Whatever a session was asked for and however that
ended, no call is active and no cell is open afterwards; it goes on just like any other session
with the same globals; a reset makes it like one that has just been started; and a source that
is refused leaves everything as it was. -/
theorem only_globals_survive {host : Host World} {W : World → World → Prop}
    (hhost : host.IsUniform W) (world : World) (switches : Switches) (level : LogLevel)
    (history : List Operation) :
    let s := ((Session.start host world switches level).performAll history).2
    s.IsIdle ∧
    (∀ (world' : World) (switches' : Switches) (level' : LogLevel) (history' : List Operation)
      (M : Matching),
      let s' := ((Session.start host world' switches' level').performAll history').2
      M.lines = Eq → s.machine.globals.Matches M s'.machine.globals →
      s.machine.store.Matches M s'.machine.store → W s.machine.world s'.machine.world →
      s.BehavesLike M W s') ∧
    (∀ (world' : World) (switches' : Switches) (level' : LogLevel) (natives : List Signature),
      let s' := (Session.start host world' switches' level').install natives
      W s.machine.world world' →
      ∃ M, M.lines = Eq ∧ (s.reset.install natives).machine.globals.Matches M s'.machine.globals ∧
        (s.reset.install natives).BehavesLike M W s') ∧
    (∀ (limit : Nat) (source : String) (diagnostics : Array Diagnostic),
      (s.compiled source).outcome = .error diagnostics →
      (s.interpret limit source).1.outcome = .error (.compile diagnostics) ∧
        (s.interpret limit source).2.machine.globals = s.machine.globals ∧
        (s.interpret limit source).2.machine.store.cells = s.machine.store.cells ∧
        (s.interpret limit source).2.machine.world = s.machine.world ∧
        (s.interpret limit source).2.profile = s.profile) := by
  have hidle : ∀ (world : World) (switches : Switches) (level : LogLevel)
      (history : List Operation),
      ((Session.start host world switches level).performAll history).2.IsIdle :=
    fun world switches level history =>
      Session.IsIdle.performAll (s := .start host world switches level) ⟨rfl, rfl⟩ history
  have hsame : ∀ (world : World) (switches : Switches) (level : LogLevel)
      (history : List Operation),
      ((Session.start host world switches level).performAll history).2.host = host :=
    fun world switches level history => Session.host_performAll _ history
  intro s
  refine ⟨hidle .., ?_, ?_, ?_⟩
  · intro world' switches' level' history' M s' hlines hglobals hstore hworld
    have hleft := hidle world switches level history
    have hright := hidle world' switches' level' history'
    refine Session.Alike.behavesLike hhost
      ⟨hlines, hsame .., hsame .., ⟨?_, ?_, hglobals, hstore, hworld⟩, hleft, hright⟩
    · rw [hleft.1, hright.1]
      exact .nil
    · rw [hleft.2, hright.2]
      exact .nil
  · intro world' switches' level' natives s' hworld
    have hreset := Session.alike_reset (hsame world switches level history) hworld switches' level'
    obtain ⟨M, -, hinstalled⟩ := hreset.install hhost natives
    exact ⟨M, hinstalled.lines, hinstalled.machine.globals, hinstalled.behavesLike hhost⟩
  · intro limit source diagnostics h
    exact Session.interpret_of_refused h limit

/-- A function of one parameter that captures the parameter and then calls `nil`. -/
def breaking : Function Value :=
  ⟨1, some "breaking", 1, 0, ⟨#[26, 0, 1, 1, 1, 25, 0], #[1, 1, 1, 1, 2, 2, 2],
    #[.function ⟨0, some "inner", 0, 1, ⟨#[10, 0, 27], #[1, 1, 1], #[]⟩⟩]⟩⟩

/-- A script that calls `breaking`. -/
def callingBreaking : Function Value :=
  ⟨2, none, 0, 0, ⟨#[0, 0, 2, 25, 1, 27], #[3, 3, 3, 3, 3, 3], #[.function breaking]⟩⟩

/-- A console on which a script has failed within a call, with a cell open. -/
def brokenSession : List (Option Outcome) × Session Console :=
  (Session.start Console.host {} {} .off).performAll
    [.defineNative ("print", some 1), .run 9 fun store => (callingBreaking, store)]

/-- The console goes on as if nothing had been run on it. -/
theorem only_globals_survive_brokenSession :
    (∃ trace, brokenSession.1 = [none, some (.error (.runtime ⟨.notCallable, trace⟩))]) ∧
    brokenSession.2.IsIdle ∧
    brokenSession.2.BehavesLike (Matching.empty.withIds 0 0) (Console.WritesLike "" "")
      ((Session.start Console.host {} {} .off).performAll [.defineNative ("print", some 1)]).2 ∧
    (∃ M, M.lines = Eq ∧ (brokenSession.2.reset.install Console.natives).BehavesLike M
      (Console.WritesLike "" "")
      ((Session.start Console.host {} {} .off).install Console.natives)) ∧
    (brokenSession.2.interpret 9 ")").2.machine.globals = brokenSession.2.machine.globals := by
  obtain ⟨hidle, hlike, hreset, hrefused⟩ :=
    only_globals_survive (Console.isUniform_host "" "") {} {} .off
      [.defineNative ("print", some 1), .run 9 fun store => (callingBreaking, store)]
  have hworld : Console.WritesLike "" "" brokenSession.2.machine.world {} := ⟨rfl, "", rfl, rfl⟩
  refine ⟨⟨_, rfl⟩, hidle, ?_, ?_, ?_⟩
  · refine hlike {} {} .off [.defineNative ("print", some 1)] (Matching.empty.withIds 0 0) rfl
      (fun name => ?_) ⟨⟨?_, False.elim⟩, ?_, False.elim, False.elim⟩ hworld
    · show Option.Rel _ (Globals.lookup name [("print", .native ⟨0, "print", some 1⟩)])
        (Globals.lookup name [("print", .native ⟨0, "print", some 1⟩)])
      unfold Globals.lookup
      split
      · exact .some (.native (.inr ⟨rfl, rfl⟩) rfl rfl)
      · exact .none
    · rintro a b a' b' (hab | ⟨rfl, rfl⟩) (hab' | ⟨rfl, rfl⟩)
      · exact hab.elim
      · exact hab.elim
      · exact hab'.elim
      · exact iff_of_true rfl rfl
    · rintro a b (hab | ⟨rfl, rfl⟩)
      · exact hab.elim
      · exact ⟨Nat.two_pos, Nat.one_pos⟩
  · obtain ⟨M, hlines, -, hbehaves⟩ := hreset {} {} .off Console.natives hworld
    exact ⟨M, hlines, hbehaves⟩
  · have hscan : scan ")" = [⟨.rightParen, ")", 1⟩, .endAt 1] := by decide +kernel
    have hout : ∃ ds, (brokenSession.2.compiled ")").outcome = .error ds := by
      unfold Session.compiled compile
      rw [hscan]
      exact ⟨_, rfl⟩
    obtain ⟨ds, hds⟩ := hout
    exact (hrefused 9 ")" ds hds).2.1

end ScriptEngine
