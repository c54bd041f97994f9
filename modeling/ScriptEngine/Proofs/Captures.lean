import ScriptEngine.Proofs.Decode
import ScriptEngine.Proofs.Machine.Captures
import ScriptEngine.Proofs.Session
set_option autoImplicit false

/-!
# Captured variables: one cell for each

A variable lives in a slot from where its value is put there until it is taken off the
stack.  All closures that capture it in the meantime share one cell, and no variable
ever gets the cell of another one (`shares_cells`).
-/

namespace ScriptEngine

open Machine Compile

variable {World : Type}

/-! ## Captures -/

/-- The next step makes the closure `c`, for which it takes `cell` as that of the slot
at `place` in the frame that runs. -/
structure Machine.Captures (host : Host World) (m : Machine World) (f : Frame)
    (place : SlotPlace) (cell : Cell) (c : Closure Value) (m' : Machine World) : Prop where
  step : ∃ ip, m.step host f = .running (f.goTo ip (f.slots.push (.closure c))) m'
  depth : place.depth = m.depth
  instruction : ∃ (i : Instruction) (n : Nat), f.chunk.decode f.ip = .ok i ∧
    i.captures[n]? = some ⟨true, place.slot⟩ ∧ c.cells[n]? = some cell

/-- The slot exists in the live frame with so many calls suspended below it, and it
belongs to a local that is declared where that frame is. -/
def Machine.HasLocal (m : Machine World) (f : Frame) (place : SlotPlace) : Prop :=
  ∃ (owner : Frame) (done : Finished), m.frameAt f place.depth = some owner ∧
    done.IsCompiled ∧ done.function = owner.function ∧ place.slot < owner.slots.size ∧
    0 < place.slot ∧ place.slot < localsAt done.checkpoints owner.ip

/-- No step from the one numbered `first` on, up to the one before `last`, takes the
value in the slot off the stack. -/
def Machine.Remains (host : Host World) (m : Machine World) (f : Frame) (place : SlotPlace)
    (first last : Nat) : Prop :=
  ∀ n g k, first ≤ n → n < last → ending host n m f = .unfinished g k → ¬ k.Vacates g place

/-- In a run, a captured variable has one cell of its own. -/
structure Machine.SharesCells (host : Host World) (m : Machine World) (f : Frame) : Prop where
  /-- An open cell is that of a local that exists. -/
  entries : ∀ n g k, ending host n m f = .unfinished g k →
    ∀ e ∈ k.openCells, k.HasLocal g e.place
  /-- Two captures give the same cell if and only if the slot is the same and kept its
  value's place on the stack from the one to the other. -/
  shared : ∀ n₁ g₁ k₁ place₁ cell₁ c₁ m₁ n₂ g₂ k₂ place₂ cell₂ c₂ m₂, n₁ ≤ n₂ →
    ending host n₁ m f = .unfinished g₁ k₁ → k₁.Captures host g₁ place₁ cell₁ c₁ m₁ →
    ending host n₂ m f = .unfinished g₂ k₂ → k₂.Captures host g₂ place₂ cell₂ c₂ m₂ →
    (cell₁ = cell₂ ↔ place₁ = place₂ ∧ Remains host m f place₁ (n₁ + 1) n₂)
  /-- A cell that was not open for the slot is a new one, with what is in the slot, or
  with the closure if that is what the slot is for. -/
  content : ∀ n g k place cell c m', ending host n m f = .unfinished g k →
    k.Captures host g place cell c m' → ⟨place, cell⟩ ∈ k.openCells ∨
      (k.store.cells.size ≤ cell.index ∧
        if place.slot = g.slots.size then m'.store.read cell = .closure c
        else g.slots[place.slot]? = some (m'.store.read cell))
  /-- No cell that there was before the run is given to a variable. -/
  new : ∀ n g k place cell c m', ending host n m f = .unfinished g k →
    k.Captures host g place cell c m' → m.store.cells.size ≤ cell.index

/-! ## One capture -/

section Captures

variable {L : Library} {host : Host World} {m m' : Machine World} {f : Frame} {Γ : Layout}
  {place : SlotPlace} {cell : Cell} {c : Closure Value}

/-- What making a closure comes to. -/
theorem exists_takeAll (host : Host World) (m : Machine World) (hf : f.Runs L Γ)
    (hgoesOn : ¬ (m.step host f).HasFailed) {i : Instruction}
    (hi : f.chunk.decode f.ip = .ok i) {n : Nat} {capture : Capture}
    (hcapture : i.captures[n]? = some capture) :
    ∃ (g : Function Value) (ip : Nat) (taken : Taken) (after : Machine World),
      takeAll f i.captures {} m = (taken, after) ∧
      (∀ c ∈ i.captures, Offers f c) ∧
      m.step host f = .running
        (f.goTo ip (f.slots.push (.closure ⟨after.store.nextId, g, taken.cells⟩)))
        { after with
          store := fill after.store.freshId.2 taken.own
            (.closure ⟨after.store.nextId, g, taken.cells⟩) } := by
  obtain ⟨op, operands, after, hholds, heff, hafter⟩ :=
    (L.typing f.function hf.has).instruction hf.layout
  have hlines := (L.typing f.function hf.has).size_lines
  obtain ⟨line, hdecode⟩ := Chunk.decode_eq hlines hholds heff
  obtain rfl : _ = i := Except.ok.inj (hdecode.symm.trans hi)
  have hall : ∀ c ∈ (Instruction.mk f.ip line op operands).captures, op = .closure →
      Offers f c := fun c hc hop => by
    by_contra hnot
    exact hgoesOn (hasFailed_of_not_offers hi (Nat.le_of_eq hlines.symm) hf.roomAskedFor_lt
      hop hc hnot)
  unfold Instruction.captures at hcapture hall ⊢
  cases heff with
  | @closure k pairs g κ Γ hk hlen _ hpairs =>
    dsimp only [List.tail_cons] at hcapture hall ⊢
    have hoffers : ∀ c ∈ Instruction.capturesOf pairs, Offers f c := fun c hc => hall c hc rfl
    cases htake : takeAll f (Instruction.capturesOf pairs) {} m with
    | mk taken after =>
    exact ⟨g, _, taken, after, rfl, hoffers, step_closure hholds hk hlen hoffers htake⟩
  | literal hop => cases op <;> cases hcapture
  | binary hop => cases op <;> cases hcapture
  | unary hop => cases op <;> cases hcapture
  | _ => cases hcapture

/-- The cell that is taken is open from then on.  It was open before, or else it is new
and holds what is in the slot. -/
theorem Machine.Captures.opened (h : m.Captures host f place cell c m') (hf : f.Runs L Γ)
    (hm : m.IsTidy L f) :
    (⟨place, cell⟩ ∈ m'.openCells ∧ ∀ e ∈ m.openCells, e ∈ m'.openCells) ∧
      (⟨place, cell⟩ ∈ m.openCells ∨ (m.store.cells.size ≤ cell.index ∧
        if place.slot = f.slots.size then m'.store.read cell = .closure c
        else f.slots[place.slot]? = some (m'.store.read cell))) := by
  obtain ⟨i, n, hi, hcapture, hcell⟩ := h.instruction
  obtain ⟨ip, hstep⟩ := h.step
  obtain ⟨g, ip', taken, after, htake, hoffers, hstep'⟩ :=
    exists_takeAll host m hf (Progress.not_hasFailed hstep) hi hcapture
  have hgathers := gathers_takeAll (f := f) hm.toIsOrdered i.captures {}
  rw [htake] at hgathers
  rw [hstep'] at hstep
  obtain ⟨hframe, rfl⟩ := Progress.running.inj hstep
  have hc := (Array.push_eq_push.mp (congrArg Frame.slots hframe)).1
  obtain rfl : _ = c := Value.closure.inj hc
  obtain ⟨cell', hcell', hmem⟩ := hgathers.cells n _ hcapture rfl
  obtain rfl : cell' = cell := by
    rw [show (({} : Taken).cells.size + n) = n from Nat.zero_add n] at hcell'
    exact Option.some.inj (hcell'.symm.trans hcell)
  have hplace : (⟨m.depth, place.slot⟩ : SlotPlace) = place := by rw [← h.depth]
  rw [hplace] at hmem
  refine ⟨⟨hmem, hgathers.kept⟩, (hgathers.fresh _ hmem).imp id fun hfresh => ⟨hfresh.new, ?_⟩⟩
  have hstored := hgathers.ordered.stored _ hmem
  split
  · next hown =>
    -- the closure is put into the cell that was taken for its own slot
    have hsome := hgathers.ownTaken (.inr (hown ▸ List.mem_of_getElem? hcapture))
    obtain ⟨own, hown'⟩ := Option.isSome_iff_exists.mp hsome
    have hmem' := (hgathers.own own hown').resolve_left (fun h => nomatch h)
    rw [← hown, hplace] at hmem'
    have hsame := congrArg OpenCell.cell (hgathers.ordered.sorted.eq_of_place hmem' hmem rfl)
    obtain rfl : own = cell' := hsame
    rw [hown']
    exact Store.read_write _ hstored
  · next hown =>
    have hoffers := hoffers _ (List.mem_of_getElem? hcapture)
    unfold Offers at hoffers
    rw [if_pos rfl] at hoffers
    have hlt : place.slot < f.slots.size := Nat.lt_of_le_of_ne hoffers hown
    have hread : (fill after.store.freshId.2 taken.own
        (.closure ⟨after.store.nextId, g, taken.cells⟩)).read cell' = after.store.read cell' := by
      cases hcase : taken.own with
      | none => rfl
      | some own =>
        refine Store.read_write_of_ne _ fun hsame => hown ?_
        have hmem' := (hgathers.own own hcase).resolve_left (fun h => nomatch h)
        have heq := hgathers.ordered.apart _ hmem' _ hmem hsame
        exact (congrArg (fun e => e.place.slot) heq).symm
    rw [hread, hfresh.content, Array.getElem?_eq_getElem hlt]
    rfl

end Captures

/-! ## Runs -/

section Runs

variable {L : Library} {host : Host World} {m k k' : Machine World} {f g g' : Frame}
  {Γ : Layout}

/-- Whenever a run is not finished, its open cells are tidy. -/
theorem isTidy_of_unfinished (hL : L.IsStrict) (hcells : host.KeepsCells)
    (hf : f.Runs L Γ) (hm : m.IsSound L host) (htidy : m.IsTidy L f) {n : Nat}
    (h : ending host n m f = .unfinished g k) : k.IsTidy L g := by
  induction n generalizing g k with
  | zero =>
    cases h
    exact htidy
  | succ n ih =>
    obtain ⟨g₀, k₀, hbefore, hstep⟩ := ending_succ_eq_unfinished_iff.mp h
    obtain ⟨⟨Δ, hg⟩, hk⟩ := runs_of_unfinished hL hf hm hbefore
    have hturn := turn_of_step hg hk
    rw [hstep] at hturn
    exact (hturn.evolves hcells hg (ih hbefore)).2

/-- A cell that exists at some point is open later on if and only if it is open there
and the slot's value is not taken off the stack in between. -/
theorem mem_openCells_iff (hL : L.IsStrict) (hcells : host.KeepsCells)
    (hf : f.Runs L Γ) (hm : m.IsSound L host) (htidy : m.IsTidy L f) {first n : Nat}
    (hle : first ≤ n) (h : ending host first m f = .unfinished g k)
    (h' : ending host n m f = .unfinished g' k') {e : OpenCell}
    (he : e.cell.index < k.store.cells.size) :
    k.store.cells.size ≤ k'.store.cells.size ∧
      (e ∈ k'.openCells ↔ e ∈ k.openCells ∧ Remains host m f e.place first n) := by
  induction n, hle using Nat.le_induction generalizing g' k' with
  | base =>
    obtain ⟨rfl, rfl⟩ := Ending.unfinished.inj (h'.symm.trans h)
    refine ⟨Nat.le_refl _, (and_iff_left fun n g k hle hlt => ?_).symm⟩
    exact absurd hle (Nat.not_le.mpr hlt)
  | succ n hle ih =>
    obtain ⟨g₀, k₀, hbefore, hstep⟩ := ending_succ_eq_unfinished_iff.mp h'
    obtain ⟨hsize, hiff⟩ := ih hbefore
    obtain ⟨⟨Δ, hg⟩, hk⟩ := runs_of_unfinished hL hf hm hbefore
    have hturn := turn_of_step hg hk
    rw [hstep] at hturn
    have hevolves := (hturn.evolves hcells hg
      (isTidy_of_unfinished hL hcells hf hm htidy hbefore)).1
    refine ⟨Nat.le_trans hsize hevolves.grows, fun hmem => ?_, fun ⟨hmem, hremains⟩ => ?_⟩
    · have hold : e ∈ k₀.openCells := (hevolves.fresh e hmem).resolve_right fun hnew =>
        Nat.not_lt.mpr (Nat.le_trans hsize hnew) he
      obtain ⟨hmem₀, hremains⟩ := hiff.mp hold
      refine ⟨hmem₀, fun j gj kj hfirst hlast hj => ?_⟩
      rcases Nat.lt_or_eq_of_le (Nat.le_of_lt_succ hlast) with hlt | rfl
      · exact hremains j gj kj hfirst hlt hj
      · obtain ⟨rfl, rfl⟩ := Ending.unfinished.inj (hj.symm.trans hbefore)
        exact (hevolves.kept e hold).mp hmem
    · have hold := hiff.mpr ⟨hmem, fun j gj kj hfirst hlast => hremains j gj kj hfirst
        (Nat.lt_succ_of_lt hlast)⟩
      exact (hevolves.kept e hold).mpr (hremains n g₀ k₀ hle (Nat.lt_succ_self n) hbefore)

/-- Where the typings agree with the compiler, an open cell is that of a local. -/
theorem Machine.IsTidy.hasLocal {t : Typing f.function} (ht : t.IsOfCompiled)
    (h : k.IsTidy (.compiled t) g) {e : OpenCell} (he : e ∈ k.openCells) :
    k.HasLocal g e.place := by
  obtain ⟨owner, howner, hinside, Δ, hat, hcaptured⟩ := h.live e he
  obtain ⟨done, hdone, hfunction, hmarks⟩ := Library.isOfCompiled_typing ht hat.has
  have hdeclared := ((Library.compiled t).typing owner.function hat.has).draft.declared _ _ _ _
    hat.layout hcaptured
  rw [hmarks] at hdeclared
  exact ⟨owner, done, howner, hdone, hfunction, hinside, hdeclared⟩

theorem sharesCells_of_isTidy (hcells : host.KeepsCells)
    {t : Typing f.function} (ht : t.IsOfCompiled) (hf : f.Runs (.compiled t) Γ)
    (hm : m.IsSound (.compiled t) host) (hempty : m.openCells = #[]) : m.SharesCells host f := by
  have hnone : ∀ e, e ∉ m.openCells := fun e he => Array.not_mem_empty e (hempty ▸ he)
  have hL : (Library.compiled t).IsStrict := fun _ _ h => h
  have htidy : m.IsTidy (.compiled t) f :=
    ⟨⟨hempty ▸ OpenCells.sorted_empty, fun a ha => absurd ha (hnone a),
      fun a ha => absurd ha (hnone a)⟩, fun a ha => absurd ha (hnone a)⟩
  have hruns : ∀ {n g k}, ending host n m f = .unfinished g k →
      (∃ Δ, g.Runs (.compiled t) Δ) ∧ k.IsTidy (.compiled t) g := fun h =>
    ⟨(runs_of_unfinished hL hf hm h).1, isTidy_of_unfinished hL hcells hf hm htidy h⟩
  have hnext : ∀ {n g k place cell c k'}, ending host n m f = .unfinished g k →
      k.Captures host g place cell c k' → ∃ g', ending host (n + 1) m f = .unfinished g' k' := by
    intro n g k place cell c k' h hcaptures
    obtain ⟨ip, hstep⟩ := hcaptures.step
    exact ⟨_, ending_succ_eq_unfinished_iff.mpr ⟨g, k, h, hstep⟩⟩
  refine ⟨fun n g k h e he => (hruns h).2.hasLocal ht he, ?_, ?_, ?_⟩
  · intro n₁ g₁ k₁ place₁ cell₁ c₁ m₁ n₂ g₂ k₂ place₂ cell₂ c₂ m₂ hle h₁ hc₁ h₂ hc₂
    obtain ⟨⟨Δ₁, hg₁⟩, htidy₁⟩ := hruns h₁
    obtain ⟨⟨Δ₂, hg₂⟩, htidy₂⟩ := hruns h₂
    obtain ⟨hmem₁, -⟩ := (hc₁.opened hg₁ htidy₁).1
    obtain ⟨hmem₂, hkept⟩ := (hc₂.opened hg₂ htidy₂).1
    obtain ⟨g₁', hnext₁⟩ := hnext h₁ hc₁
    obtain ⟨g₂', hnext₂⟩ := hnext h₂ hc₂
    have htidy₁' := (hruns hnext₁).2
    have htidy₂' := (hruns hnext₂).2
    have hstored := htidy₁'.stored _ hmem₁
    constructor
    · rintro rfl
      obtain ⟨hback, hremains⟩ := (mem_openCells_iff hL hcells hf hm htidy
        (Nat.succ_le_succ hle) hnext₁ hnext₂ (e := ⟨place₂, cell₁⟩) hstored).2.mp hmem₂
      obtain rfl : place₁ = place₂ :=
        congrArg OpenCell.place (htidy₁'.apart _ hmem₁ _ hback rfl)
      exact ⟨rfl, fun n g k hfirst hlast => hremains n g k hfirst (Nat.lt_succ_of_lt hlast)⟩
    · rintro ⟨rfl, hremains⟩
      have hlater : (⟨place₁, cell₁⟩ : OpenCell) ∈ m₂.openCells := by
        rcases Nat.lt_or_eq_of_le hle with hlt | rfl
        · exact hkept _ ((mem_openCells_iff hL hcells hf hm htidy hlt hnext₁ h₂
            (e := ⟨place₁, cell₁⟩) hstored).2.mpr ⟨hmem₁, hremains⟩)
        · obtain ⟨-, rfl⟩ := Ending.unfinished.inj (hnext₂.symm.trans hnext₁)
          exact hmem₁
      exact congrArg OpenCell.cell (htidy₂'.sorted.eq_of_place hlater hmem₂ rfl)
  · intro n g k place cell c k' h hcaptures
    obtain ⟨⟨Δ, hg⟩, hk⟩ := hruns h
    exact (hcaptures.opened hg hk).2
  · intro n g k place cell c k' h hcaptures
    obtain ⟨⟨Δ, hg⟩, hk⟩ := hruns h
    obtain ⟨hmem, -⟩ := (hcaptures.opened hg hk).1
    obtain ⟨g', hg'⟩ := hnext h hcaptures
    by_contra hlt
    have hiff := (mem_openCells_iff hL hcells hf hm htidy (Nat.zero_le (n + 1)) rfl hg'
      (e := ⟨place, cell⟩) (Nat.not_le.mp hlt)).2
    exact hnone _ (hiff.mp hmem).1

end Runs

/-! ## Sessions -/

/-- In every run of a program that compiles, whatever was interpreted before it, all
captures of a variable share one cell, which is the cell of no other variable.  The natives
may give back whatever they like as long as its code is compiled. -/
theorem shares_cells {host : Host World} {world : World}
    (hhost : host.Gives Value.IsCompiled world) (hcells : host.KeepsCells)
    (switches : Switches) (level : LogLevel) (natives : List Signature)
    (history : List (Nat × String)) (source : String) (script : Function Value)
    (hok : ((Session.opened host world switches level natives history).compiled
      source).outcome = .ok script) :
    ((Session.opened host world switches level natives history).loaded source).SharesCells
      host (scriptFrame script) := by
  obtain ⟨t, ht⟩ := exists_isOfCompiled (isCompiled_of_compile hok)
  have hnatives : host.Gives (Value.IsSound (.compiled t)) world := hhost
  have hL : (Library.compiled t).IsStrict := fun _ _ h => h
  obtain ⟨⟨Γ, hruns⟩, hloaded⟩ := runs_opened hL (fun _ => id) hnatives hok
  exact sharesCells_of_isTidy (f := scriptFrame script) hcells ht hruns hloaded
    (isSound_opened hL (fun _ => id) hnatives switches level natives history).openCells

/-- The standard natives leave all cells where they are. -/
theorem keepsCells_console : Console.host.KeepsCells := fun _ _ _ _ => Nat.le_refl _

/-- A function that gives what it captured. -/
def reader (id : Identity) (name : String) : Function Value :=
  ⟨id, some name, 0, 1, ⟨#[10, 0, 27], #[1, 1, 1], #[]⟩⟩

/-- A script with two functions that capture the same variable. -/
def twoReaders : Function Value :=
  ⟨2, none, 0, 0, ⟨#[1, 26, 0, 1, 1, 26, 1, 1, 1, 4, 4, 12, 1, 27],
    #[1, 1, 1, 1, 1, 1, 1, 1, 1, 1, 1, 1, 1, 1],
    #[.function (reader 0 "f"), .function (reader 1 "g")]⟩⟩

/-- The source of that script. -/
def twoReadersSource : String :=
  "\x7b var a fn f() \x7b return a \x7d fn g() \x7b return a \x7d \x7d"

theorem compile_twoReaders : (compile 0 twoReadersSource).outcome = .ok twoReaders := by
  have hscan : scan twoReadersSource =
      [⟨.leftBrace, "\x7b", 1⟩, ⟨.varWord, "var", 1⟩, ⟨.identifier, "a", 1⟩,
        ⟨.fnWord, "fn", 1⟩, ⟨.identifier, "f", 1⟩, ⟨.leftParen, "(", 1⟩,
        ⟨.rightParen, ")", 1⟩, ⟨.leftBrace, "\x7b", 1⟩, ⟨.returnWord, "return", 1⟩,
        ⟨.identifier, "a", 1⟩, ⟨.rightBrace, "\x7d", 1⟩, ⟨.fnWord, "fn", 1⟩,
        ⟨.identifier, "g", 1⟩, ⟨.leftParen, "(", 1⟩, ⟨.rightParen, ")", 1⟩,
        ⟨.leftBrace, "\x7b", 1⟩, ⟨.returnWord, "return", 1⟩, ⟨.identifier, "a", 1⟩,
        ⟨.rightBrace, "\x7d", 1⟩, ⟨.rightBrace, "\x7d", 1⟩, .endAt 1] := by decide +kernel
  unfold compile
  rw [hscan]
  rfl

/-- The second step of that script makes a closure that captures the variable. -/
theorem shares_cells_twoReaders :
    ((Session.opened Console.host {} {} .off [] []).loaded twoReadersSource).SharesCells
        Console.host (scriptFrame twoReaders) ∧
      ∃ g k i, ending Console.host 1
        ((Session.opened Console.host {} {} .off [] []).loaded twoReadersSource)
        (scriptFrame twoReaders) = .unfinished g k ∧ g.chunk.decode g.ip = .ok i ∧
        i.captures = [⟨true, 1⟩] :=
  ⟨shares_cells (givesBack_console (fun _ => Value.isCompiled_of_isPlain) {}).gives
    keepsCells_console {} .off [] [] twoReadersSource twoReaders compile_twoReaders,
    _, _, _, rfl, rfl, rfl⟩

end ScriptEngine
