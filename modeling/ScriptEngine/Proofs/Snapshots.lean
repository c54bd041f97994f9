import Mathlib
import ScriptEngine.Proofs.Heights
import ScriptEngine.Proofs.Machine.Failing
import ScriptEngine.Proofs.Scopes.Parsing
import ScriptEngine.Proofs.Scopes.Sparing
import ScriptEngine.Proofs.Session
set_option autoImplicit false

/-!
# Captured variables: copies that agree

A cell is filled when its variable is captured, and later assignments to the variable do
not reach it.  In sources that do not assign to captured variables this makes no difference:
an open cell always holds what is in its slot, and what a closure reads is what was in the
variable's slot for all of its life, even after it has ended (`captures_agree`).
-/

namespace ScriptEngine

open Machine Compile

variable {World : Type}

/-! ## Snapshots -/

/-- Before the step numbered `limit` the run captures a variable in the cell, and the
variable's slot holds `v` for all of its life. -/
def Machine.Snapshot (host : Host World) (m : Machine World) (f : Frame) (limit : Nat)
    (cell : Cell) (v : Value) : Prop :=
  ∃ n g k place c g₁ k₁, n < limit ∧ ending host n m f = .unfinished g k ∧
    k.Captures host g place cell c k₁ ∧ ending host (n + 1) m f = .unfinished g₁ k₁ ∧
    k₁.valueAt g₁ place = some v ∧
    ∀ n' g' k' w, ending host n' m f = .unfinished g' k' →
      Remains host m f place (min n' (n + 1)) (max n' (n + 1)) →
      k'.valueAt g' place = some w → w = v

/-- What the cells of captured variables hold.  `Earlier` is about those that were captured
before the run. -/
structure Machine.Agrees (host : Host World) (m : Machine World) (f : Frame)
    (Earlier : Cell → Value → Prop) : Prop where
  /-- An open cell holds what its slot holds. -/
  entries : ∀ n g k, ending host n m f = .unfinished g k →
    ∀ e ∈ k.openCells, k.valueAt g e.place = some (k.store.read e.cell)
  /-- A closure reads what the slot of the variable held. -/
  reads : ∀ n g k i, ending host n m f = .unfinished g k → g.chunk.decode g.ip = .ok i →
    i.op = .getUpvalue → ∃ j cell v, i.operands = [j] ∧ g.cells[j.toNat]? = some cell ∧
      k.step host g = .running (g.goTo (g.ip + 2) (g.slots.push v)) k ∧
      (Earlier cell v ∨ Snapshot host m f n cell v)

theorem Machine.Snapshot.mono {host : Host World} {m : Machine World} {f : Frame}
    {limit limit' : Nat} {cell : Cell} {v : Value} (h : Snapshot host m f limit cell v)
    (hle : limit ≤ limit') : Snapshot host m f limit' cell v := by
  obtain ⟨n, g, k, place, c, g₁, k₁, hlt, hrest⟩ := h
  exact ⟨n, g, k, place, c, g₁, k₁, Nat.lt_of_lt_of_le hlt hle, hrest⟩

/-- The cell is there, and what it holds was in the slot of a variable. -/
def Machine.Known (host : Host World) (m : Machine World) (f : Frame)
    (Earlier : Cell → Value → Prop) (n : Nat) (s : Store) (cell : Cell) : Prop :=
  cell.index < s.cells.size ∧
    (Earlier cell (s.read cell) ∨ Snapshot host m f n cell (s.read cell))

section Holding

variable {K K' : Cell → Prop} {host : Host World} {m : Machine World} {f : Frame} {v : Value}

theorem Value.HoldsOnly.mono (h : v.HoldsOnly K) (hK : ∀ c, K c → K' c) : v.HoldsOnly K' := by
  cases v with
  | closure c => exact fun cell hcell => hK cell (h cell hcell)
  | _ => trivial

theorem Frame.HoldsOnly.mono (h : f.HoldsOnly K) (hK : ∀ c, K c → K' c) : f.HoldsOnly K' :=
  ⟨fun c hc => hK c (h.cells c hc), fun v hv => (h.slots v hv).mono hK⟩

theorem Machine.HoldsOnly.mono (h : m.HoldsOnly host K f) (hK : ∀ c, K c → K' c) :
    m.HoldsOnly host K' f :=
  ⟨fun name v hv => (h.globals name v hv).mono hK, fun v hv => (h.store v hv).mono hK,
    fun g hg => (h.callers g hg).mono hK, h.frame.mono hK,
    h.natives.mono fun _ hv => hv.mono hK⟩

theorem Machine.Known.mono {Earlier : Cell → Value → Prop} {n n' : Nat}
    {s s' : Store} {cell : Cell} (h : Known host m f Earlier n s cell) (hle : n ≤ n')
    (hspares : s.Spares s') : Known host m f Earlier n' s' cell := by
  obtain ⟨hlt, hor⟩ := h
  refine ⟨Nat.lt_of_lt_of_le hlt hspares.grows, ?_⟩
  rw [hspares.reads cell hlt]
  exact hor.imp id fun hsnapshot => hsnapshot.mono hle

end Holding

/-! ## Runs -/

section Runs

variable {L : Library} {host : Host World} {m k k' k₁ : Machine World} {f g g' : Frame}
  {n : Nat} {place : SlotPlace} {cell : Cell} {c : Closure Value}
  {Earlier : Cell → Value → Prop}

/-- What a capture gives is a snapshot. -/
theorem Launch.snapshot (h : Launch L host m f) (hn : ending host n m f = .unfinished g k)
    (hc : k.Captures host g place cell c k₁) :
    Known host m f Earlier (n + 1) k₁.store cell := by
  obtain ⟨⟨Γ, hg⟩, -, htidy⟩ := h.state hn
  obtain ⟨g₁, -, hnext, -⟩ := h.captured hn hc
  obtain ⟨hmem, -⟩ := (hc.opened hg htidy).1
  have hv := h.entry_agrees hnext hmem
  refine ⟨(h.state hnext).2.2.stored _ hmem, .inr ⟨n, g, k, place, c, g₁, k₁,
    Nat.lt_succ_self n, hn, hc, hnext, hv, fun n' g' k' w hn' hlife => ?_⟩⟩
  exact (h.value_in_life hn hc hnext hv hn' hlife).2 w

/-- All cells that are held by closures come from captures. -/
theorem Launch.holdsOnly (h : Launch L host m f)
    (hm : m.HoldsOnly host (Known host m f Earlier 0 m.store) f)
    (hn : ending host n m f = .unfinished g k) :
    k.HoldsOnly host (Known host m f Earlier n k.store) g := by
  induction n generalizing g k with
  | zero =>
    cases hn
    exact hm
  | succ n ih =>
    obtain ⟨g₀, k₀, hbefore, hstep⟩ := ending_succ_eq_unfinished_iff.mp hn
    have hspares := h.spares_step hbefore hstep
    refine (h.moves hbefore hstep).holds _ ((ih hbefore).mono fun cell hcell =>
      hcell.mono (Nat.le_succ n) hspares) fun place cell c hc => h.snapshot hbefore hc

theorem Launch.agrees (h : Launch L host m f)
    (hm : m.HoldsOnly host (Known host m f Earlier 0 m.store) f) : m.Agrees host f Earlier := by
  refine ⟨fun n g k hn e he => h.entry_agrees hn he, fun n g k i hn hi hop => ?_⟩
  obtain ⟨⟨Γ, hg⟩, -, -⟩ := h.state hn
  obtain ⟨op, operands, after, hholds, heff, -⟩ :=
    (L.typing g.function hg.has).instruction hg.layout
  obtain ⟨line, hdecode⟩ := Chunk.decode_eq (L.typing g.function hg.has).size_lines hholds heff
  obtain rfl : _ = i := Except.ok.inj (hdecode.symm.trans hi)
  dsimp only at hop
  subst hop
  cases heff with
  | @getUpvalue j _ hj =>
    have hlt : j.toNat < g.cells.size := (h.exact _ _ hg.allowed).2.symm ▸ hj
    have hcell := Array.getElem?_eq_getElem hlt
    obtain ⟨-, hknown⟩ := (h.holdsOnly hm hn).frame.cells _ (Array.getElem_mem hlt)
    exact ⟨j, _, _, rfl, hcell, step_getUpvalue hholds hcell, hknown⟩
  | literal hop => cases hop
  | binary hop => cases hop
  | unary hop => cases hop

/-! ### The end of a run -/

/-- A run that ends makes a last step. -/
theorem ending_cases (host : Host World) (limit : Nat) (m : Machine World) (f : Frame) :
    ∃ n g k, n ≤ limit ∧ ending host n m f = .unfinished g k ∧
      ((ending host limit m f).machine = k ∨
        (∃ v, k.step host g = .finished v (ending host limit m f).machine) ∨
        ∃ failure, k.step host g = .failed failure (ending host limit m f).machine) := by
  induction limit generalizing m f with
  | zero => exact ⟨0, f, m, Nat.le_refl 0, rfl, .inl rfl⟩
  | succ limit ih =>
    rw [ending_succ]
    cases hstep : m.step host f with
    | running f' m' =>
      obtain ⟨n, g, k, hle, hn, hor⟩ := ih m' f'
      refine ⟨n + 1, g, k, Nat.succ_le_succ hle, ?_, hor⟩
      rw [ending_succ, hstep]
      exact hn
    | finished v m' =>
      exact ⟨0, f, m, Nat.zero_le _, rfl, .inr (.inl ⟨v, hstep⟩)⟩
    | failed failure m' =>
      exact ⟨0, f, m, Nat.zero_le _, rfl, .inr (.inr ⟨failure, hstep⟩)⟩

/-- All cells that are held between two runs have the property, and natives give no others. -/
structure Machine.KeepsOnly (host : Host World) (K : Cell → Prop) (m : Machine World) : Prop where
  globals : ∀ name v, m.globals.get? name = some v → v.HoldsOnly K
  store : ∀ v ∈ m.store.cells, v.HoldsOnly K
  natives : host.GivesBack (Value.HoldsOnly K) m.world

theorem Machine.KeepsOnly.mono {K K' : Cell → Prop} (h : m.KeepsOnly host K)
    (hK : ∀ c, K c → K' c) : m.KeepsOnly host K' :=
  ⟨fun name v hv => (h.globals name v hv).mono hK, fun v hv => (h.store v hv).mono hK,
    h.natives.mono fun _ hv => hv.mono hK⟩

theorem Machine.KeepsOnly.defineNative {K : Cell → Prop} (h : m.KeepsOnly host K)
    (n : Signature) : (m.defineNative n).KeepsOnly host K := by
  refine ⟨fun x v hv => ?_, h.store, h.natives⟩
  rcases Globals.eq_or_get_of_get_define hv with rfl | hv
  · trivial
  · exact h.globals x v hv

theorem Machine.HoldsOnly.keepsOnly {K : Cell → Prop} (h : m.HoldsOnly host K f) :
    m.KeepsOnly host K :=
  ⟨h.globals, h.store, h.natives⟩

/-- However a run ends, the cells that are held then come from captures. -/
theorem Launch.keepsOnly_ending (h : Launch L host m f)
    (hm : m.HoldsOnly host (Known host m f Earlier 0 m.store) f) (limit : Nat) :
    (ending host limit m f).machine.KeepsOnly host
      (Known host m f Earlier limit (ending host limit m f).machine.store) := by
  obtain ⟨n, g, k, hle, hn, hor⟩ := ending_cases host limit m f
  have hholds := h.holdsOnly hm hn
  generalize (ending host limit m f).machine = last at hor ⊢
  have hlater : k.KeepsOnly host (Known host m f Earlier limit k.store) :=
    hholds.keepsOnly.mono fun cell hcell => hcell.mono hle (.refl k.store)
  rcases hor with rfl | ⟨v, hstep⟩ | ⟨failure, hstep⟩
  · exact hlater
  · obtain ⟨⟨Γ, hg⟩, hk, -⟩ := h.state hn
    have hturn := turn_of_step hg hk
    rw [hstep] at hturn
    cases hturn with
    | finish =>
      refine ⟨?_, ?_, ?_⟩ <;> rw [store_closeFrame]
      · exact globals_closeFrame k ▸ hlater.globals
      · exact hlater.store
      · exact world_closeFrame k ▸ hlater.natives
  · rcases failsBy_of_step hstep with rfl | ⟨native, arguments, message, hmem, -, rfl⟩
    · exact hlater
    · have harguments : ∀ v ∈ arguments, v.HoldsOnly (Known host m f Earlier n k.store) :=
        fun v hv => hholds.frame.slots v (hmem v hv)
      have hafter : ({ k with
          store := (host.call native arguments k.store k.world).store
          world := (host.call native arguments k.store k.world).world } : Machine World).KeepsOnly
            host (Known host m f Earlier n k.store) :=
        ⟨hholds.globals, (hholds.natives.gives.reply harguments hholds.store).cells,
          hholds.natives.next harguments hholds.store⟩
      exact hafter.mono fun cell hcell => hcell.mono hle (h.spares native arguments _ _)

end Runs

/-! ## Sessions -/

/-- The source assigns to no variable that it captures, if it compiles. -/
def SparesCaptures (source : String) : Prop :=
  ∀ firstId script, (compile firstId source).outcome = .ok script →
    ∃ ds, Tree.Spelled source ds ∧ Tree.SparesCaptures ds

theorem Function.Within.trans {p q r : Function Value} (h : p.Within q) (k : q.Within r) :
    p.Within r := by
  induction k with
  | self => exact h
  | pooled hpool _ ih => exact .pooled hpool ih

/-- The compiled functions that assign to no captured variable, nor do those in them. -/
noncomputable def Library.sparing : Library where
  Has g := g.IsCompiled ∧ ∀ p : Function Value, p.Within g → p.SparesCaptures
  typing _ h := (exists_isOfCompiled h.1).choose
  closed _ h _ hinner :=
    ⟨h.1.closed hinner, fun p hp => h.2 p (hp.trans (.pooled hinner .self))⟩
  Allows g n := (g.IsCompiled ∧ ∀ p : Function Value, p.Within g → p.SparesCaptures) ∧
    n = g.captureCount
  allows _ h := ⟨h, rfl⟩

theorem Library.isExact_sparing : sparing.IsExact := fun _ _ h => h

section Sessions

variable {host : Host World} {s : Session World} {source : String} {script : Function Value}

theorem Library.has_sparing (hok : (s.compiled source).outcome = .ok script)
    (hspares : SparesCaptures source) : sparing.Has script := by
  obtain ⟨ds, hspelled, htree⟩ := hspares _ script hok
  exact ⟨isCompiled_of_compile hok, fun p hp => sparesCaptures_of_program hspelled htree hok hp⟩

/-- A script starts a run. -/
theorem Session.IsSound.launch (hs : s.IsSound .sparing) (hcells : s.host.SparesCells)
    (hok : (s.compiled source).outcome = .ok script) (hspares : SparesCaptures source) :
    Launch .sparing s.host (s.loaded source) (scriptFrame script) := by
  obtain ⟨hruns, hloaded⟩ := hs.scriptRuns hok (Library.has_sparing hok hspares)
  refine ⟨Library.isExact_sparing, hcells, hruns, hloaded, ?_, hs.callers, hs.openCells,
    fun p hp => hp.2 p .self⟩
  show (⟨0, 1⟩ : Spot) = ⟨0, 1 + script.arity⟩
  rw [(succeeds_of_compile hok).arity]

/-- The cell was given to a variable by one of the sources that the session interpreted. -/
def Session.Captured (s : Session World) (history : List (Nat × String)) (cell : Cell)
    (v : Value) : Prop :=
  ∃ before limit source script, before ++ [(limit, source)] <+: history ∧
    ((s.after before).compiled source).outcome = .ok script ∧
    Snapshot s.host ((s.after before).loaded source) (scriptFrame script) limit cell v

/-- The cell is there and was given to a variable. -/
def Session.Knows (s : Session World) (history : List (Nat × String)) (store : Store)
    (cell : Cell) : Prop :=
  cell.index < store.cells.size ∧ s.Captured history cell (store.read cell)

/-- The session has run nothing that assigns to captured variables, and all cells that it
holds are those of variables. -/
structure Session.Remembers (s : Session World) (history : List (Nat × String)) : Prop where
  sound : (s.after history).IsSound .sparing
  keeps : (s.after history).machine.KeepsOnly s.host
    (s.Knows history (s.after history).machine.store)

theorem Session.after_concat (s : Session World) (history : List (Nat × String)) (limit : Nat)
    (source : String) : s.after (history ++ [(limit, source)]) =
      ((s.after history).interpret limit source).2 := by
  unfold after
  rw [List.foldl_append]
  rfl

variable {history : List (Nat × String)}

theorem Session.Captured.append {cell : Cell} {v : Value} (h : s.Captured history cell v)
    (more : List (Nat × String)) : s.Captured (history ++ more) cell v := by
  obtain ⟨before, limit, source, script, hprefix, hrest⟩ := h
  exact ⟨before, limit, source, script, hprefix.trans (List.prefix_append _ _), hrest⟩

/-- What a source finds when it is run. -/
theorem Session.Remembers.holdsOnly (h : s.Remembers history) (source : String)
    (script : Function Value) :
    ((s.after history).loaded source).HoldsOnly s.host
      (Known s.host ((s.after history).loaded source) (scriptFrame script)
        (s.Captured history) 0 ((s.after history).loaded source).store) (scriptFrame script) := by
  have hkeeps := h.keeps.mono fun cell hcell =>
    (⟨hcell.1, .inl hcell.2⟩ : Known s.host ((s.after history).loaded source)
      (scriptFrame script) (s.Captured history) 0 ((s.after history).loaded source).store cell)
  refine ⟨hkeeps.globals, hkeeps.store, fun g hg => ?_, ⟨?_, fun v hv => ?_⟩, hkeeps.natives⟩
  · have hnone : ((s.after history).loaded source).callers = [] := h.sound.callers
    exact absurd (hnone ▸ hg) List.not_mem_nil
  · exact fun cell hcell => absurd hcell (Array.not_mem_empty _)
  · rw [Array.mem_singleton.mp hv]
    trivial

/-- Interpreting one more source. -/
theorem Session.Remembers.concat (h : s.Remembers history) (hcells : s.host.SparesCells)
    (limit : Nat) (hspares : SparesCaptures source) :
    s.Remembers (history ++ [(limit, source)]) := by
  have hafter := s.after_concat history limit source
  have hhost := s.host_after history
  refine ⟨?_, ?_⟩ <;> rw [hafter]
  · exact h.sound.interpret Library.isExact_sparing.isStrict
      (fun script hok => Library.has_sparing hok hspares) limit
  cases hok : ((s.after history).compiled source).outcome with
  | error diagnostics =>
    rw [Session.interpret_refused hok limit]
    have hkeeps : ((s.after history).loaded source).KeepsOnly s.host
        (s.Knows history (s.after history).machine.store) := ⟨h.keeps.1, h.keeps.2, h.keeps.3⟩
    exact hkeeps.mono fun cell hcell => ⟨hcell.1, hcell.2.append _⟩
  | ok script =>
    have hlaunch := h.sound.launch (hhost.symm ▸ hcells) hok hspares
    rw [hhost] at hlaunch
    have hkeeps := hlaunch.keepsOnly_ending (h.holdsOnly source script) limit
    rw [(Session.interpret_eq hok limit).2, hhost]
    generalize (ending s.host limit ((s.after history).loaded source)
      (scriptFrame script)).machine = last at hkeeps
    have hsettled : last.settle.KeepsOnly s.host (Known s.host ((s.after history).loaded source)
        (scriptFrame script) (s.Captured history) limit last.store) :=
      ⟨hkeeps.globals, hkeeps.store, hkeeps.natives⟩
    refine hsettled.mono ?_
    rintro cell ⟨hlt, hearlier | hsnapshot⟩
    · exact ⟨hlt, hearlier.append _⟩
    · exact ⟨hlt, history, limit, source, script, List.prefix_rfl, hok, hsnapshot⟩

theorem Session.remembers (hcells : s.host.SparesCells) (hstart : s.Remembers [])
    (hspares : ∀ entry ∈ history, SparesCaptures entry.2) : s.Remembers history := by
  induction history using List.reverseRecOn with
  | nil => exact hstart
  | append_singleton history entry ih =>
    refine (ih fun e he => hspares e (List.mem_append_left _ he)).concat hcells entry.1 ?_
    exact hspares entry (List.mem_append_right _ List.mem_cons_self)

/-- A session starts with no closures. -/
theorem Session.remembers_start {world : World} (hhost : host.MakesNoCode world)
    (switches : Switches) (level : LogLevel) (natives : List Signature) :
    ((Session.start host world switches level).install natives).Remembers [] := by
  have hsound : (Session.start host world switches level).IsSound .sparing :=
    isSound_start (hhost.givesBack fun _ => .of_code).gives switches level
  refine ⟨isSound_install _ natives hsound, ?_⟩
  have hstart : ∀ K, ({ world } : Machine World).KeepsOnly host K := fun K =>
    ⟨fun _ _ => nofun, fun _ hv => absurd hv (Array.not_mem_empty _),
      hhost.givesBack fun _ => .of_code K⟩
  exact List.foldlRecOn natives defineNative
    (motive := fun m : Machine World => m.KeepsOnly host _) (hstart _)
    fun m hm n _ => hm.defineNative n

/-- A source that compiles spells some declarations.  If these assign to no captured variables, and
those of the session's earlier sources neither, then each open cell holds at any time what its slot
holds, and a closure reads what the slot of the variable held for all of the variable's life, be it
one of this source or of an earlier one.  The natives may give back what they were given, but must
not make up closures or write to cells. -/
theorem captures_agree {world : World} (hhost : host.MakesNoCode world)
    (hcells : host.SparesCells) (switches : Switches) (level : LogLevel)
    (natives : List Signature) (history : List (Nat × String)) (source : String)
    (script : Function Value) (hhistory : ∀ entry ∈ history, SparesCaptures entry.2)
    (hok : ((Session.opened host world switches level natives history).compiled
      source).outcome = .ok script) :
    (∃ ds, Tree.Spelled source ds) ∧ ∀ ds, Tree.Spelled source ds → Tree.SparesCaptures ds →
      ((Session.opened host world switches level natives history).loaded source).Agrees host
        (scriptFrame script)
        (((Session.start host world switches level).install natives).Captured history) := by
  refine ⟨exists_spelled hok, fun ds hspelled htree => ?_⟩
  have hspares : SparesCaptures source := fun _ _ _ => ⟨ds, hspelled, htree⟩
  have hremembers := Session.remembers (s := (Session.start host world switches level).install
    natives) hcells (Session.remembers_start hhost switches level natives) hhistory
  have hsame : (Session.opened host world switches level natives history).host = host :=
    Session.host_opened ..
  have hlaunch := hremembers.sound.launch (hsame.symm ▸ hcells) hok hspares
  exact (hsame ▸ hlaunch).agrees (hremembers.holdsOnly source script)

/-- The standard natives leave all cells alone. -/
theorem sparesCells_console : Console.host.SparesCells := fun _ _ _ _ => .refl _

/-- A program in which one variable is assigned to, and another one, which has the same slot
later on, is captured. -/
def reusingSlotTree : List Tree.Declaration :=
  [.block [.var "a" (some (.literal (.boolean true))),
      .expression (.assign "a" (.literal (.boolean false)))],
    .block [.var "b" (some (.literal .nil)), .function "f" [] [.result (some (.name "b"))],
      .expression (.call (.name "f") [])]]

/-- The source of that program. -/
def reusingSlotSource : String :=
  "\x7b var a = true a = false \x7d \x7b var b = nil fn f() \x7b return b \x7d f() \x7d"

/-- Its script. -/
def reusingSlot (firstId : Identity) : Function Value :=
  ⟨firstId + 1, none, 0, 0,
    ⟨#[2, 3, 6, 1, 4, 4, 1, 26, 0, 1, 1, 5, 2, 25, 0, 4, 4, 12, 1, 27],
      #[1, 1, 1, 1, 1, 1, 1, 1, 1, 1, 1, 1, 1, 1, 1, 1, 1, 1, 1, 1],
      #[.function (reader firstId "f")]⟩⟩

theorem compile_reusingSlot (firstId : Identity) :
    (compile firstId reusingSlotSource).outcome = .ok (reusingSlot firstId) := by
  have hscan : scan reusingSlotSource =
      [⟨.leftBrace, "\x7b", 1⟩, ⟨.varWord, "var", 1⟩, ⟨.identifier, "a", 1⟩, ⟨.equal, "=", 1⟩,
        ⟨.trueWord, "true", 1⟩, ⟨.identifier, "a", 1⟩, ⟨.equal, "=", 1⟩,
        ⟨.falseWord, "false", 1⟩, ⟨.rightBrace, "\x7d", 1⟩, ⟨.leftBrace, "\x7b", 1⟩,
        ⟨.varWord, "var", 1⟩, ⟨.identifier, "b", 1⟩, ⟨.equal, "=", 1⟩, ⟨.nilWord, "nil", 1⟩,
        ⟨.fnWord, "fn", 1⟩, ⟨.identifier, "f", 1⟩, ⟨.leftParen, "(", 1⟩,
        ⟨.rightParen, ")", 1⟩, ⟨.leftBrace, "\x7b", 1⟩, ⟨.returnWord, "return", 1⟩,
        ⟨.identifier, "b", 1⟩, ⟨.rightBrace, "\x7d", 1⟩, ⟨.identifier, "f", 1⟩,
        ⟨.leftParen, "(", 1⟩, ⟨.rightParen, ")", 1⟩, ⟨.rightBrace, "\x7d", 1⟩,
        .endAt 1] := by decide +kernel
  unfold compile
  rw [hscan]
  cbv

open ScriptEngine.Tree in
theorem spelled_reusingSlot : Spelled reusingSlotSource reusingSlotTree := by
  have hset : Spells (.expression (.assign "a" (.literal (.boolean false)))) _ :=
    .expression (.assign (by decide) (.literal (.boolean false) _))
  have hfirst := Spells.block (.cons (.var (.value (x := "a") (.literal (.boolean true) _)))
    (by exact ⟨rfl, by decide⟩) (.cons hset (by exact ⟨rfl, by decide⟩) .nil))
  have hresult := Spells.result (.some (.name "b" _))
  have hreader : Spells (.function "f" [] [.result (some (.name "b"))]) _ :=
    .function (.cons hresult (by exact ⟨rfl, by decide⟩) .nil)
  have hcall := Spells.expression (.emptyCall (by decide) (.name "f" _))
  have hsecond := Spells.block (.cons (.var (.value (x := "b") (.literal .nil _)))
    (by exact ⟨rfl, by decide⟩) (.cons hreader trivial
      (.cons hcall (by exact ⟨rfl, by decide⟩) .nil)))
  exact ⟨_, .cons hfirst trivial (.cons hsecond trivial .nil), by decide +kernel⟩

/-- The tenth step of that script reads the variable that was captured. -/
theorem captures_agree_reusingSlot :
    ((Session.opened Console.host {} {} .off [] []).loaded reusingSlotSource).Agrees Console.host
        (scriptFrame (reusingSlot 0))
        (((Session.start Console.host {} {} .off).install []).Captured []) ∧
      ∃ g k i, ending Console.host 9
        ((Session.opened Console.host {} {} .off [] []).loaded reusingSlotSource)
        (scriptFrame (reusingSlot 0)) = .unfinished g k ∧ g.chunk.decode g.ip = .ok i ∧
        i.op = .getUpvalue := by
  obtain ⟨-, hagrees⟩ := captures_agree (givesBack_console (fun _ => Value.code_of_isPlain) {})
    sparesCells_console {} .off [] [] reusingSlotSource (reusingSlot 0)
    (fun _ h => absurd h List.not_mem_nil) (compile_reusingSlot 0)
  -- The two variables have the same slot, but only one of them is captured.
  exact ⟨hagrees reusingSlotTree spelled_reusingSlot (by decide), _, _, _, rfl, rfl, rfl⟩

/-! ### Copies that disagree -/

/-- What the slots of variables hold after `n` steps of a run, in words, and what the open cells for
them hold. -/
def Session.openTexts (s : Session World) (source : String) (n : Nat) :
    List (Option String × String) :=
  match (s.compiled source).outcome with
  | .error _ => []
  | .ok script =>
    match ending s.host n (s.loaded source) (scriptFrame script) with
    | .unfinished g m => m.openCells.toList.map fun e =>
        ((m.valueAt g e.place).map Value.toText, (m.store.read e.cell).toText)
    | _ => []

theorem not_agrees_of_openTexts {n : Nat} {slot : Option String} {cell : String}
    (h : (slot, cell) ∈ s.openTexts source n) (hne : slot ≠ some cell) :
    ∃ script, (s.compiled source).outcome = .ok script ∧
      ∀ Earlier, ¬ (s.loaded source).Agrees s.host (scriptFrame script) Earlier := by
  unfold Session.openTexts at h
  split at h
  · cases h
  next script hok =>
  split at h
  next g m hrun =>
    obtain ⟨e, he, htexts⟩ := List.mem_map.mp h
    obtain ⟨rfl, rfl⟩ := Prod.mk.inj htexts
    refine ⟨script, hok, fun Earlier hagrees => hne ?_⟩
    rw [hagrees.entries n g m hrun e (Array.mem_toList_iff.mp he)]
    rfl
  · cases h

/-- A native that writes to what a closure has captured first. -/
def Host.overwriting : Host Unit := .writing fun _ => .boolean false

/-- A program that hands a closure to such a native. -/
def overwritingSource : String :=
  "\x7b var x = true fn f() \x7b return x \x7d overwrite(f) \x7d"

/-- The session of such a program. -/
def overwritingSession : Session Unit :=
  .opened Host.overwriting () {} .off [("overwrite", some 1)] []

open ScriptEngine.Tree in
theorem sparesCaptures_overwritingSource : SparesCaptures overwritingSource := by
  intro _ _ _
  refine ⟨[.block [.var "x" (some (.literal (.boolean true))),
    .function "f" [] [.result (some (.name "x"))],
    .expression (.call (.name "overwrite") [.name "f"])]], ?_, by decide⟩
  have hresult := Spells.result (.some (.name "x" _))
  have hreader : Spells (.function "f" [] [.result (some (.name "x"))]) _ :=
    .function (.cons hresult (by exact ⟨rfl, by decide⟩) .nil)
  have hcall := Spells.expression (.call (by decide) (.name "overwrite" _) (.name "f" _) .noMore)
  have hblock := Spells.block (.cons (.var (.value (x := "x") (.literal (.boolean true) _)))
    (by exact ⟨rfl, by decide⟩) (.cons hreader trivial
      (.cons hcall (by exact ⟨rfl, by decide⟩) .nil)))
  exact ⟨_, .cons hblock trivial .nil, by decide +kernel⟩

/-- A session that has interpreted a source which assigns to a captured variable. -/
def assigningSession : Session Console :=
  .opened Console.host {} {} .off []
    [(100, "fn late() \x7b var x = true fn get() \x7b return x \x7d x = false return get() \x7d")]

open ScriptEngine.Tree in
theorem sparesCaptures_callingLate : SparesCaptures "return late()" := by
  intro _ _ _
  refine ⟨[.result (some (.call (.name "late") []))], ?_, by decide⟩
  have hresult := Spells.result (.some (.emptyCall (by decide) (.name "late" _)))
  exact ⟨_, .cons hresult (by exact ⟨rfl, by decide⟩) .nil, by decide +kernel⟩

/-- Where natives write to cells, or where an earlier source of the session assigned to a variable
that it had captured, copies do not agree, whatever the source itself is like. -/
theorem copies_disagree :
    (SparesCaptures overwritingSource ∧
      ∃ script, (overwritingSession.compiled overwritingSource).outcome = .ok script ∧
        ∀ Earlier, ¬ (overwritingSession.loaded overwritingSource).Agrees overwritingSession.host
          (scriptFrame script) Earlier) ∧
    SparesCaptures "return late()" ∧
      ∃ script, (assigningSession.compiled "return late()").outcome = .ok script ∧
        ∀ Earlier, ¬ (assigningSession.loaded "return late()").Agrees assigningSession.host
          (scriptFrame script) Earlier := by
  have hwritten : (some "true", "false") ∈ overwritingSession.openTexts overwritingSource 5 := by
    decide +kernel
  have hassigned : (some "false", "true") ∈ assigningSession.openTexts "return late()" 6 := by
    decide +kernel
  exact ⟨⟨sparesCaptures_overwritingSource, not_agrees_of_openTexts hwritten (by decide)⟩,
    sparesCaptures_callingLate, not_agrees_of_openTexts hassigned (by decide)⟩

end Sessions

end ScriptEngine
