import ScriptEngine.Proofs.Compile.Numbered
import ScriptEngine.Proofs.Loops.Desugaring
import ScriptEngine.Proofs.Scopes.Marks
set_option autoImplicit false

/-!
# All functions of a flow

A script is code of a flow, and so is each function that the flow makes a closure of.  There are no
other functions in the script: the tree has a closure for each identity (`makesAll_pieceOfBody`),
and an identity stands for one function only.  If the flow spares captured variables, then all
functions in the script do (`sparesCaptures_of_spares`).
-/

namespace ScriptEngine

open Compile ScriptEngine.Tree

/-! ## Closures in flows -/

namespace Flow

/-- The identities of the functions that a flow makes closures of, and of those inside of them. -/
def makes : Flow → List Identity
  | seq a b | split a b | loop a b => a.makes ++ b.makes
  | forever a => a.makes
  | closure id _ _ _ body => id :: body.makes
  | _ => []

@[simp] theorem makes_append (a b : Flow) : (a ++ b).makes = a.makes ++ b.makes := by
  rcases append_eq a b with heq | rfl | rfl
  · rw [heq]
    rfl
  · rfl
  · rw [append_nil]
    exact (List.append_nil _).symm

@[simp] theorem makes_plain (ops : List Opcode) : (plain ops).makes = [] := by
  induction ops with
  | nil => rfl
  | cons op ops ih =>
    rw [plain, makes_append, ih]
    rfl

@[simp] theorem makes_finish (a : Flow) : a.finish.makes = a.makes := by
  unfold finish
  split
  · rfl
  · simp

variable {level : Nat} {Γ Δ Θ : Marks} {a b : Flow} {homes : List Home}

theorem exists_spares_of_append (h : (a ++ b).Spares level Γ Θ) :
    ∃ Δ, a.Spares level Γ Δ ∧ b.Spares level Δ Θ := by
  rcases append_eq a b with heq | rfl | rfl
  · rw [heq] at h
    cases h with
    | seq first second => exact ⟨_, first, second⟩
  · exact ⟨Γ, .nil, h⟩
  · rw [append_nil] at h
    exact ⟨Θ, h, .nil⟩

/-- The return at the end of a function spares captured variables as well. -/
theorem Spares.whole (h : a.Spares level Γ Δ) : ∃ Θ, a.finish.Spares level Γ Θ := by
  unfold Flow.finish
  split
  · exact ⟨Δ, h⟩
  · have hnil : (Flow.direct .nil []).Spares level Δ (false :: Δ) :=
      spares_direct (by decide) [false] rfl rfl
    have hreturn : (Flow.direct .return []).Spares level (false :: Δ) (false :: Δ) :=
      spares_direct (by decide) [] rfl rfl
    exact ⟨_, h.append (hnil.append (hreturn.append .nil))⟩

end Flow

/-! ## Functions that are code of such flows -/

/-- The function is code of a flow that spares captured variables. -/
def Function.IsSparing (p : Function Value) : Prop :=
  ∃ (level : Nat) (homes : List Home) (a : Flow) (Γ Δ : Marks), Γ.length = 1 + p.arity ∧
    a.Spares level Γ Δ ∧ a.finish.IsCode p.chunk.constants level homes p.chunk.code.toList

theorem Function.IsSparing.sparesCaptures {p : Function Value} (h : p.IsSparing)
    (hlines : p.chunk.code.size ≤ p.chunk.lines.size) : p.SparesCaptures := by
  obtain ⟨level, homes, a, Γ, Δ, hlength, hspares, hcode⟩ := h
  have htracks : p.Tracks level homes ⟨0, 1 + p.arity⟩ Γ :=
    ⟨hlength.symm, _, .before hcode rfl (.of_code rfl) rfl (.done _), hspares.finish⟩
  exact htracks.sparesCaptures hlines

/-- A closure is made of a function that is code of a part of the flow. -/
theorem Flow.IsCode.makes {pool : Array Value} {level : Nat} {homes : List Home} {a : Flow}
    {bytes : List UInt8} {Γ Δ : Marks} (hcode : a.IsCode pool level homes bytes)
    (hspares : a.Spares level Γ Δ) : ∀ id ∈ a.makes, ∃ g f : Function Value, g.id = id ∧
      g.IsSparing ∧ .function f ∈ pool ∧ g.Within f := by
  induction hcode generalizing Γ Δ with
  | nil | direct | pooled | captured => exact List.forall_mem_nil _
  | seq _ _ ih ih' =>
    cases hspares with
    | seq first second => exact List.forall_mem_append.mpr ⟨ih first, ih' second⟩
  | @closure _ level homes _ _ pairs g name body constant title count _ within captures ends
      inside ih =>
    cases hspares with
    | @closure _ _ _ Γ₀ Δ₀ _ _ _ _ a _ entered inside' whole marked =>
      subst whole
      refine List.forall_mem_cons.mpr ⟨⟨g, g, rfl, ?_, Array.mem_of_getElem? constant, .self⟩, ?_⟩
      · exact ⟨_, _, a, Γ₀, Δ₀, entered, inside', inside⟩
      · intro id hid
        obtain ⟨Θ, hwhole⟩ := inside'.whole
        obtain ⟨h, f, hid', hsparing, hmem, hwithin⟩ := ih hwhole id hid
        exact ⟨h, g, hid', hsparing, Array.mem_of_getElem? constant, .pooled hmem hwithin⟩
  | split _ _ _ _ ih ih' =>
    cases hspares with
    | split yes no => exact List.forall_mem_append.mpr ⟨ih yes, ih' no⟩
  | skip _ _ ih =>
    cases hspares with
    | split yes no => exact List.forall_mem_append.mpr ⟨ih yes, List.forall_mem_nil _⟩
  | loop _ _ _ _ ih ih' =>
    cases hspares with
    | loop condition body => exact List.forall_mem_append.mpr ⟨ih condition, ih' body⟩
  | loopAround _ _ _ _ _ _ _ ih ih' ih'' =>
    cases hspares with
    | loop condition body =>
      obtain ⟨Λ, hfirst, hsecond⟩ := exists_spares_of_append body
      refine List.forall_mem_append.mpr ⟨ih condition, ?_⟩
      rw [makes_append]
      exact List.forall_mem_append.mpr ⟨ih' hfirst, ih'' hsecond⟩
  | forever _ _ ih =>
    cases hspares with
    | forever body => exact ih body
  | foreverAround _ _ _ _ _ ih ih' =>
    cases hspares with
    | forever body =>
      obtain ⟨Λ, hfirst, hsecond⟩ := exists_spares_of_append body
      show ∀ id ∈ (_ ++ _ : Flow).makes, _
      rw [makes_append]
      exact List.forall_mem_append.mpr ⟨ih hfirst, ih' hsecond⟩

/-! ## Identities in trees -/

namespace Tree

/-- The flow of the part makes a closure for each identity that it uses up, from `id` on. -/
def Piece.MakesAll (id : Nat) (p : Piece) : Prop :=
  ∀ j, id ≤ j → j < id + p.functions → j ∈ p.flow.makes

namespace Piece

variable {id id' : Nat} {p q : Piece} {ν : Naming}

theorem makesAll_of_functions (h : p.functions = 0) (id : Nat) : p.MakesAll id := by
  intro j hle hlt
  rw [h] at hlt
  exact absurd hle (Nat.not_le.mpr hlt)

/-- What is made by two parts, one behind the other. -/
theorem mem_of_makesAll (hp : p.MakesAll id) (hq : q.MakesAll id') (hid : id' = id + p.functions) :
    ∀ j, id ≤ j → j < id + (p.functions + q.functions) → j ∈ p.flow.makes ++ q.flow.makes := by
  intro j hle hlt
  subst hid
  rcases Nat.lt_or_ge j (id + p.functions) with hfirst | hsecond
  · exact List.mem_append_left _ (hp j hle hfirst)
  · exact List.mem_append_right _ (hq j hsecond (by omega))

theorem MakesAll.append (hp : p.MakesAll id) (hq : q.MakesAll id')
    (hid : id' = id + p.functions) : (p ++ q).MakesAll id := by
  rw [append_def]
  unfold MakesAll
  dsimp only
  rw [Flow.makes_append]
  exact mem_of_makesAll hp hq hid

/-- A part in front that makes no function. -/
theorem MakesAll.after (hq : q.MakesAll id) (hp : p.functions = 0) : (p ++ q).MakesAll id :=
  (makesAll_of_functions hp id).append hq (by rw [hp]; rfl)

/-- A part behind that makes no function. -/
theorem MakesAll.before (hp : p.MakesAll id) (hq : q.functions = 0) : (p ++ q).MakesAll id :=
  hp.append (makesAll_of_functions hq _) rfl

theorem MakesAll.split (hp : p.MakesAll id) (hq : q.MakesAll id')
    (hid : id' = id + p.functions) : (split p q).MakesAll id :=
  mem_of_makesAll hp hq hid

theorem MakesAll.repeated {condition : Option Piece}
    (hcondition : ∀ c ∈ condition, c.functions = 0) (hp : p.MakesAll id) :
    (repeated condition p).MakesAll id := by
  cases condition with
  | none => exact hp
  | some c =>
    have hc := hcondition c rfl
    exact mem_of_makesAll (makesAll_of_functions hc id) hp (by rw [hc]; rfl)

theorem MakesAll.inScope (hp : p.MakesAll id) : (inScope ν p).MakesAll id := by
  intro j hle hlt
  show j ∈ (p.flow ++ _).makes
  rw [Flow.makes_append]
  exact List.mem_append_left _ (hp j hle hlt)

theorem MakesAll.function {level arity : Nat} {x : String} (hp : p.MakesAll id) :
    (function level id x arity p).MakesAll id := by
  intro j hle hlt
  show j ∈ (id + p.functions) :: p.flow.finish.makes
  rw [Flow.makes_finish]
  have hlt' : j < id + (p.functions + 1) := hlt
  rcases Nat.lt_or_ge j (id + p.functions) with hinside | hlast
  · exact List.mem_cons_of_mem _ (hp j hle hinside)
  · rw [show j = id + p.functions by omega]
    exact List.mem_cons_self

end Piece

section Trees

variable {ν : Naming}

theorem functions_valuePiece (ν : Naming) (value : Option Expression) :
    (valuePiece ν value).functions = 0 := by
  cases value with
  | none => rfl
  | some e => exact e.isValue.functions

theorem functions_bound (ν : Naming) (x : String) : (Piece.bound ν x).functions = 0 := by
  unfold Piece.bound
  split <;> rfl

theorem functions_varPiece (ν : Naming) (x : String) (value : Option Expression) :
    (varPiece ν x value).functions = 0 := by
  unfold varPiece
  rw [Piece.append_def, functions_valuePiece, functions_bound]

theorem functions_droppedPiece (ν : Naming) (e : Option Expression) :
    (droppedPiece ν e).functions = 0 := by
  cases e with
  | none => rfl
  | some e => exact (e.isValue.append (isValue_flow (ν := ν) _)).functions

theorem functions_initializer (ν : Naming) (first : Initializer) :
    (first.piece ν).functions = 0 := by
  cases first with
  | none => rfl
  | var x value => exact functions_varPiece ν x value
  | expression e => exact functions_droppedPiece ν (some e)

mutual

/-- Each function of a declaration gets a closure. -/
theorem makesAll_piece : ∀ (d : Declaration) (ν : Naming) (id : Identity),
    (d.piece ν id).MakesAll id
  | .var x value, ν, _ => Piece.makesAll_of_functions (functions_varPiece ν x value) _
  | .function _ _ body, ν, id =>
    (makesAll_pieceOfBody body _ id).function.before (functions_bound ν _)
  | .branch c yes, ν, id =>
    (((makesAll_piece yes ν.inner id).inScope.after rfl).split
      (Piece.makesAll_of_functions rfl (id + _)) rfl).after c.isValue.functions
  | .choice c yes no, ν, id =>
    (((makesAll_piece yes ν.inner id).inScope.after rfl).split
      ((makesAll_piece no ν.inner _).inScope.after rfl)
        (congrArg (id + ·) (Nat.zero_add _).symm)).after c.isValue.functions
  | .loop c body, ν, id =>
    (makesAll_piece body ν.inner id).inScope.repeated fun _ h =>
      Option.some.inj h ▸ c.isValue.functions
  | .count first c step body, ν, id => by
    refine Piece.MakesAll.inScope (Piece.MakesAll.after ?_ (functions_initializer ν.inner first))
    refine Piece.MakesAll.repeated (fun p hp => ?_)
      ((makesAll_piece body _ id).inScope.before (functions_droppedPiece _ step))
    obtain ⟨e, -, rfl⟩ := Option.map_eq_some_iff.mp hp
    exact e.isValue.functions
  | .block body, ν, id => (makesAll_pieceOfBody body ν.inner id).inScope
  | .result value, ν, _ =>
    (Piece.makesAll_of_functions (functions_valuePiece ν value) _).before rfl
  | .expression e, ν, _ => Piece.makesAll_of_functions (functions_droppedPiece ν (some e)) _
termination_by structural d => d

/-- Each function of some declarations gets a closure. -/
theorem makesAll_pieceOfBody : ∀ (ds : List Declaration) (ν : Naming) (id : Identity),
    (pieceOfBody ds ν id).MakesAll id
  | [], _, _ => Piece.makesAll_of_functions rfl _
  | d :: ds, ν, id => (makesAll_piece d ν id).append (makesAll_pieceOfBody ds _ _) rfl
termination_by structural ds => ds

end

end Trees

end Tree

/-! ## Scripts -/

/-- All functions of a script spare what they capture if the flow of the script does. -/
theorem sparesCaptures_of_spares {firstId : Identity} {source : String} {ds : List Declaration}
    {script p : Function Value} {Γ Δ : Marks} (hspelled : Spelled source ds)
    (hok : (compile firstId source).outcome = .ok script) (hlength : Γ.length = 1)
    (hspares : (pieceOfBody ds ⟨[""], [], true⟩ firstId).flow.Spares 0 Γ Δ)
    (hp : p.Within script) : p.SparesCaptures := by
  have hsucceeds := succeeds_of_compile hok
  obtain ⟨hcode, hcount⟩ := isCode_of_compile hspelled hok
  have hscript : script.IsSparing :=
    ⟨0, [], _, Γ, Δ, by rw [hlength, hsucceeds.arity], hspares, hcode⟩
  obtain ⟨done, hdone, hf⟩ := exists_finished hsucceeds hp
  have hlines : p.chunk.code.size ≤ p.chunk.lines.size := by
    obtain ⟨t, -⟩ := (hsucceeds.sound done hdone).exists_typing
    rw [← hf, t.size_lines]
  obtain ⟨hids, hscript⟩ := ids_of_compile hok
  obtain ⟨i, hi⟩ := Array.getElem?_of_mem hdone
  have hid : p.id = firstId + i := by
    rw [← hf]
    exact hids i done hi
  have hbound := (Array.getElem?_eq_some_iff.mp hi).1
  have hfirst : firstId ≤ p.id := hid ▸ Nat.le_add_right firstId i
  have hle : p.id ≤ script.id := Nat.le_of_lt_succ (by
    rw [Nat.succ_eq_add_one, hscript, hid]
    exact Nat.add_lt_add_left hbound firstId)
  have hfunctions : script.id = firstId + (pieceOfBody ds ⟨[""], [], true⟩ firstId).functions :=
    Nat.succ.inj hcount
  -- the function is the script or one of those that its flow makes
  have hsparing : p.IsSparing := by
    rcases Nat.lt_or_eq_of_le hle with hlt | hlast
    · obtain ⟨Θ, hwhole⟩ := hspares.whole
      have hmakes : p.id ∈ (scriptFlow ds firstId).makes := by
        unfold scriptFlow
        rw [Flow.makes_finish]
        exact makesAll_pieceOfBody ds _ firstId p.id hfirst (hfunctions ▸ hlt)
      obtain ⟨g, f, hg, hsparing, hmem, hwithin⟩ := hcode.makes hwhole p.id hmakes
      rwa [← eq_of_id hok (.pooled hmem hwithin) hp hg]
    · rwa [eq_of_id hok hp .self hlast]
  exact hsparing.sparesCaptures hlines

end ScriptEngine
