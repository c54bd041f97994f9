import ScriptEngine.Proofs.Loops.Spreading
import ScriptEngine.Proofs.Tree.Meaning
set_option autoImplicit false

/-!
# Declarations with functions, and their flows

`Declaration` has all forms of declarations as trees.  What the code of a tree does is given by its
flow, which depends on the names around (`Naming`) and on nothing else that is compiled before: a
name is a slot of the innermost function, or a variable of one further out, or a global.  With the
flow come the variables that have to be captured for it (`Piece`).

A counted loop can be unrolled to a loop with a condition only.  `Unrolls` says that this was done
to some of the counted loops in a tree; the pieces stay the same (`piece_eq_of_unrolls`).
-/

namespace ScriptEngine.Tree

open Compile

/-! ## Trees -/

/-- A declaration or statement. -/
inductive Declaration where
  | var (x : String) (value : Option Expression)
  | function (x : String) (parameters : List String) (body : List Declaration)
  | branch (condition : Expression) (yes : Declaration)
  | choice (condition : Expression) (yes no : Declaration)
  /-- A loop that is repeated while its condition holds. -/
  | loop (condition : Expression) (body : Declaration)
  /-- A loop with initializer, condition and increment. -/
  | count (first : Initializer) (condition step : Option Expression) (body : Declaration)
  | block (body : List Declaration)
  | result (value : Option Expression)
  | expression (e : Expression)
  deriving Inhabited

mutual

/-- Some counted loops are replaced by a block that does first what is done first, and then the body
and the increment while the condition holds. -/
inductive Unrolls : Declaration → Declaration → Prop where
  | same (d : Declaration) : Unrolls d d
  | unroll {x : String} {e c step : Expression} {body body' : List Declaration}
      (inside : UnrollsAll body body') :
      Unrolls (.count (.var x (some e)) (some c) (some step) (.block body))
        (.block [.var x (some e), .loop c (.block [.block body', .expression step])])
  | function {x : String} {parameters : List String} {body body' : List Declaration}
      (inside : UnrollsAll body body') : Unrolls (.function x parameters body)
        (.function x parameters body')
  | branch {c : Expression} {yes yes' : Declaration} (inside : Unrolls yes yes') :
      Unrolls (.branch c yes) (.branch c yes')
  | choice {c : Expression} {yes yes' no no' : Declaration} (inside : Unrolls yes yes')
      (other : Unrolls no no') : Unrolls (.choice c yes no) (.choice c yes' no')
  | loop {c : Expression} {body body' : Declaration} (inside : Unrolls body body') :
      Unrolls (.loop c body) (.loop c body')
  | count {first : Initializer} {c step : Option Expression} {body body' : Declaration}
      (inside : Unrolls body body') : Unrolls (.count first c step body) (.count first c step body')
  | block {body body' : List Declaration} (inside : UnrollsAll body body') :
      Unrolls (.block body) (.block body')

/-- Some counted loops in the declarations are replaced. -/
inductive UnrollsAll : List Declaration → List Declaration → Prop where
  | nil : UnrollsAll [] []
  | cons {d d' : Declaration} {ds ds' : List Declaration} (first : Unrolls d d')
      (more : UnrollsAll ds ds') : UnrollsAll (d :: ds) (d' :: ds')

end

/-! ## Names -/

/-- The names of local variables. -/
structure Naming where
  /-- Those of the innermost function, newest first, with the callee as the last one. -/
  names : List String
  /-- Those of the functions around, innermost first. -/
  around : List (List String)
  /-- No scope is open. -/
  isGlobal : Bool

/-- The variable that a name means. -/
inductive Access where
  | slot (k : Nat)
  | captured (h : Home)
  | global (x : String)

namespace Naming

variable (ν : Naming)

/-- With newer names, newest first. -/
def declare (new : List String) : Naming := { ν with names := new ++ ν.names }

/-- In a scope. -/
def inner : Naming := { ν with isGlobal := false }

/-- While the variable with a name gets its first value. -/
def binding (x : String) : Naming := if ν.isGlobal then ν else ν.declare [x]

/-- The variable that a name means. -/
def access (x : String) : Access :=
  match position? x ν.names with
  | some k => .slot k
  | none =>
      match homeIn? x ν.around with
      | some h => .captured h
      | none => .global x

end Naming

/-- An instruction with a number, which has to fit in a byte. -/
def numbered (op : Opcode) (k : Nat) : Flow :=
  if k < byteRange then .direct op [k.toUInt8] else .absent

namespace Access

/-- Reads the variable. -/
def get : Access → Flow
  | slot k => numbered .getLocal k
  | captured h => .captured .getUpvalue h
  | global x => .pooled .getGlobal (.string x)

/-- Writes the variable. -/
def set : Access → Flow
  | slot k => numbered .setLocal k
  | captured h => .captured .setUpvalue h
  | global x => .pooled .setGlobal (.string x)

/-- What has to be captured for the variable. -/
def homes : Access → List Home
  | captured h => [h]
  | _ => []

end Access

/-! ## Pieces -/

/-- What becomes of a part of a tree. -/
@[ext] structure Piece where
  flow : Flow := .nil
  /-- The variables that this function and the ones inside of it capture. -/
  homes : List Home := []
  /-- The local variables that are left behind, newest first. -/
  declared : List String := []
  /-- How many functions there are. -/
  functions : Nat := 0

namespace Piece

/-- One part after another one. -/
protected def append (p q : Piece) : Piece :=
  ⟨p.flow ++ q.flow, p.homes ++ q.homes, q.declared ++ p.declared, p.functions + q.functions⟩

instance : Append Piece := ⟨Piece.append⟩

theorem append_def (p q : Piece) : p ++ q =
    ⟨p.flow ++ q.flow, p.homes ++ q.homes, q.declared ++ p.declared, p.functions + q.functions⟩ :=
  rfl

@[simp] theorem nothing_append (p : Piece) : ({} : Piece) ++ p = p := by
  rw [append_def, Flow.nil_append, List.nil_append, List.append_nil, Nat.zero_add]

@[simp] theorem append_nothing (p : Piece) : p ++ ({} : Piece) = p := by
  simp [append_def]

/-- Instructions without operands. -/
def ops (ops : List Opcode) : Piece := { flow := .plain ops }

/-- One of two parts, by a condition. -/
def split (yes no : Piece) : Piece :=
  { flow := .split yes.flow no.flow, homes := yes.homes ++ no.homes
    functions := yes.functions + no.functions }

/-- A part while a condition holds, or for ever if there is none. -/
def repeated : Option Piece → Piece → Piece
  | some c, body =>
      { flow := .loop c.flow body.flow, homes := c.homes ++ body.homes
        functions := c.functions + body.functions }
  | none, body => { flow := .forever body.flow, homes := body.homes, functions := body.functions }

/-- What retires `n` local variables from a slot on, of which some are captured. -/
def retirements (level base : Nat) (homes : List Home) : Nat → List Opcode
  | 0 => []
  | n + 1 =>
      (if ⟨level, base + n⟩ ∈ homes then .closeUpvalue else .pop) ::
        retirements level base homes n

/-- The variable belongs to a function with `level` functions around it and has one of its slots
from `base` on. -/
def isRetired (level base : Nat) (h : Home) : Bool := h.level = level && base ≤ h.slot

/-- A part in a scope of its own. -/
def inScope (ν : Naming) (p : Piece) : Piece :=
  { flow := p.flow ++
      .plain (retirements ν.around.length ν.names.length p.homes p.declared.length)
    homes := p.homes.filter fun h => !isRetired ν.around.length ν.names.length h
    functions := p.functions }

/-- A function with some parameters, whose body is a part. -/
def function (level : Nat) (id : Identity) (x : String) (arity : Nat) (body : Piece) : Piece :=
  let homes := body.homes.filter fun h => h.level ≤ level
  { flow := .closure (id + body.functions) x arity homes body.flow.finish
    homes, functions := body.functions + 1 }

/-- The variable that was declared gets the value on top. -/
def bound (ν : Naming) (x : String) : Piece :=
  if ν.isGlobal then { flow := .pooled .defineGlobal (.string x) } else { declared := [x] }

end Piece

/-! ## Expressions -/

/-- Pushes a literal. -/
def Literal.flow : Literal → Flow
  | .boolean true => .direct .true []
  | .boolean false => .direct .false []
  | .nil => .direct .nil []
  | l => .pooled .constant l.value

mutual

/-- What becomes of an expression. -/
def Expression.piece (ν : Naming) : Expression → Piece
  | .literal l => { flow := l.flow }
  | .name x => { flow := (ν.access x).get, homes := (ν.access x).homes }
  | .assign x e =>
      { homes := (ν.access x).homes } ++ e.piece ν ++ { flow := (ν.access x).set }
  | .unary op e => e.piece ν ++ .ops [op.code]
  | .binary op l r => l.piece ν ++ r.piece ν ++ .ops op.code
  | .and l r => l.piece ν ++ .split (.ops [.pop] ++ r.piece ν) {}
  | .or l r => l.piece ν ++ .split {} (.ops [.pop] ++ r.piece ν)
  | .call callee es =>
      callee.piece ν ++ pieceOfAll ν es ++ { flow := numbered .call es.length }
termination_by structural e => e

/-- What becomes of expressions in a row. -/
def pieceOfAll (ν : Naming) : List Expression → Piece
  | [] => {}
  | e :: es => e.piece ν ++ pieceOfAll ν es
termination_by structural es => es

end

/-- What becomes of an expression that is `nil` if it is missing. -/
def valuePiece (ν : Naming) : Option Expression → Piece
  | some e => e.piece ν
  | none => .ops [.nil]

/-! ## Declarations -/

/-- What becomes of a variable. -/
def varPiece (ν : Naming) (x : String) (value : Option Expression) : Piece :=
  valuePiece (ν.binding x) value ++ .bound ν x

/-- What becomes of an expression whose value is dropped, or of none. -/
def droppedPiece (ν : Naming) : Option Expression → Piece
  | some e => e.piece ν ++ .ops [.pop]
  | none => {}

/-- What becomes of what a counted loop does first. -/
def Initializer.piece (ν : Naming) : Initializer → Piece
  | .none => {}
  | .var x value => varPiece ν x value
  | .expression e => droppedPiece ν (some e)

mutual

/-- What becomes of a declaration.  The functions in it get identities from `id` on. -/
def Declaration.piece : Declaration → Naming → Identity → Piece
  | .var x value, ν, _ => varPiece ν x value
  | .function x parameters body, ν, id =>
      .function ν.around.length id x parameters.length
        (pieceOfBody body ⟨parameters.reverse ++ [""], (ν.binding x).names :: ν.around, false⟩
          id) ++
      .bound ν x
  | .branch c yes, ν, id =>
      c.piece ν ++ .split (.ops [.pop] ++ .inScope ν (yes.piece ν.inner id)) (.ops [.pop])
  | .choice c yes no, ν, id =>
      let first := yes.piece ν.inner id
      c.piece ν ++ .split (.ops [.pop] ++ .inScope ν first)
        (.ops [.pop] ++ .inScope ν (no.piece ν.inner (id + first.functions)))
  | .loop c body, ν, id => .repeated (some (c.piece ν)) (.inScope ν (body.piece ν.inner id))
  | .count first c step body, ν, id =>
      let start := first.piece ν.inner
      let ν' := ν.inner.declare start.declared
      .inScope ν (start ++ .repeated (c.map (Expression.piece ν'))
        (.inScope ν' (body.piece ν' id) ++ droppedPiece ν' step))
  | .block body, ν, id => .inScope ν (pieceOfBody body ν.inner id)
  | .result value, ν, _ => valuePiece ν value ++ .ops [.return]
  | .expression e, ν, _ => droppedPiece ν (some e)
termination_by structural d => d

/-- What becomes of declarations in a row. -/
def pieceOfBody : List Declaration → Naming → Identity → Piece
  | [], _, _ => {}
  | d :: ds, ν, id =>
      let first := d.piece ν id
      first ++ pieceOfBody ds (ν.declare first.declared) (id + first.functions)
termination_by structural ds => ds

end

/-! ## Unrolled loops -/

section Unrolled

variable {ν : Naming} {p q : Piece}

theorem level_of_access (x : String) : ∀ h ∈ (ν.access x).homes, h.level < ν.around.length := by
  intro h hmem
  unfold Naming.access at hmem
  split at hmem
  · cases hmem
  · split at hmem
    · next hx =>
      rw [List.mem_singleton.mp hmem]
      exact level_of_homeIn hx
    · cases hmem

/-- The part neither declares anything nor needs variables of its own function to be captured. -/
structure Piece.IsValue (ν : Naming) (p : Piece) : Prop where
  homes : ∀ h ∈ p.homes, h.level < ν.around.length
  declared : p.declared = []
  functions : p.functions = 0

theorem Piece.IsValue.append (hp : p.IsValue ν) (hq : q.IsValue ν) : (p ++ q).IsValue ν where
  homes := List.forall_mem_append.mpr ⟨hp.homes, hq.homes⟩
  declared := by rw [append_def, hp.declared, hq.declared, List.append_nil]
  functions := by rw [append_def, hp.functions, hq.functions]

theorem Piece.IsValue.split (hp : p.IsValue ν) (hq : q.IsValue ν) : (split p q).IsValue ν where
  homes := List.forall_mem_append.mpr ⟨hp.homes, hq.homes⟩
  declared := rfl
  functions := by rw [Piece.split, hp.functions, hq.functions]

theorem isValue_flow (a : Flow) : Piece.IsValue ν { flow := a } :=
  ⟨List.forall_mem_nil _, rfl, rfl⟩

theorem isValue_access (a : Flow) (x : String) :
    Piece.IsValue ν { flow := a, homes := (ν.access x).homes } :=
  ⟨level_of_access x, rfl, rfl⟩

mutual

theorem Expression.isValue : ∀ e : Expression, (e.piece ν).IsValue ν
  | .literal _ => isValue_flow _
  | .name x => isValue_access _ x
  | .assign x e => ((isValue_access _ x).append e.isValue).append (isValue_flow _)
  | .unary _ e => e.isValue.append (isValue_flow _)
  | .binary _ l r => (l.isValue.append r.isValue).append (isValue_flow _)
  | .and l r => l.isValue.append (((isValue_flow _).append r.isValue).split (isValue_flow _))
  | .or l r => l.isValue.append ((isValue_flow _).split ((isValue_flow _).append r.isValue))
  | .call callee es => (callee.isValue.append (isValue_pieceOfAll es)).append (isValue_flow _)
termination_by structural e => e

theorem isValue_pieceOfAll : ∀ es : List Expression, (pieceOfAll ν es).IsValue ν
  | [] => isValue_flow _
  | e :: es => e.isValue.append (isValue_pieceOfAll es)
termination_by structural es => es

end

/-- A scope changes nothing where nothing is declared. -/
theorem inScope_eq_self (hdeclared : p.declared = [])
    (hhomes : ∀ h ∈ p.homes, Piece.isRetired ν.around.length ν.names.length h = false) :
    Piece.inScope ν p = p := by
  have hfilter : p.homes.filter (fun h => !Piece.isRetired ν.around.length ν.names.length h) =
      p.homes := List.filter_eq_self.mpr fun h hh => by rw [hhomes h hh]; rfl
  unfold Piece.inScope
  rw [hfilter, hdeclared]
  refine Piece.ext ?_ rfl hdeclared.symm rfl
  exact Flow.append_nil _

/-- What is in a scope is not retired once more. -/
theorem homes_inScope (p : Piece) : ∀ h ∈ (Piece.inScope ν p).homes,
    Piece.isRetired ν.around.length ν.names.length h = false := by
  intro h hmem
  have hkept := (List.mem_filter.mp hmem).2
  simpa using hkept

theorem Piece.IsValue.notRetired (hp : p.IsValue ν) (base : Nat) :
    ∀ h ∈ p.homes, Piece.isRetired ν.around.length base h = false := by
  intro h hmem
  have hlt := hp.homes h hmem
  unfold Piece.isRetired
  rw [Bool.and_eq_false_iff, decide_eq_false_iff_not]
  exact .inl (Nat.ne_of_lt hlt)

/-- A counted loop does what the loop does that it is unrolled to. -/
theorem piece_unroll (x : String) (e c step : Expression) {body body' : List Declaration}
    (hbody : ∀ ν id, pieceOfBody body ν id = pieceOfBody body' ν id) (id : Identity) :
    (Declaration.count (.var x (some e)) (some c) (some step) (.block body)).piece ν id =
      (Declaration.block [.var x (some e),
        .loop c (.block [.block body', .expression step])]).piece ν id := by
  have hstart : (varPiece ν.inner x (some e)).declared = [x] := by
    rw [varPiece, valuePiece, Piece.append_def, e.isValue.declared]
    rfl
  have hnone : (varPiece ν.inner x (some e)).functions = 0 := by
    rw [varPiece, valuePiece, Piece.append_def, e.isValue.functions]
    rfl
  have hinner : (ν.inner.declare [x]).inner = ν.inner.declare [x] := rfl
  -- the body and the increment
  have hvalue : (droppedPiece (ν.inner.declare [x]) (some step)).IsValue (ν.inner.declare [x]) :=
    step.isValue.append (isValue_flow _)
  have hround : ∀ p : Piece, p.declared = [] →
      (∀ h ∈ p.homes, Piece.isRetired (ν.inner.declare [x]).around.length
        (ν.inner.declare [x]).names.length h = false) →
      Piece.inScope (ν.inner.declare [x]) p = p := fun p => inScope_eq_self
  simp only [Declaration.piece, pieceOfBody, Initializer.piece, hstart, hnone, hinner,
    Piece.append_nothing, Nat.add_zero, Option.map_some, hbody]
  generalize hb :
    Piece.inScope (ν.inner.declare [x]) (pieceOfBody body' (ν.inner.declare [x]) id) = b
  have hdeclared : b.declared = [] := by
    rw [← hb]
    rfl
  have hkept := hb ▸ @homes_inScope (ν.inner.declare [x])
    (pieceOfBody body' (ν.inner.declare [x]) id)
  have hadded : ν.inner.declare [x] = (ν.inner.declare [x]).declare b.declared := by
    rw [hdeclared]
    rfl
  rw [← hadded]
  have hboth : (b ++ droppedPiece (ν.inner.declare [x]) (some step)).declared = [] := by
    rw [Piece.append_def, hvalue.declared, hdeclared, List.append_nil]
  have hhomes : ∀ h ∈ (b ++ droppedPiece (ν.inner.declare [x]) (some step)).homes, _ :=
    List.forall_mem_append.mpr ⟨hkept, hvalue.notRetired _⟩
  rw [hround b hdeclared hkept, hround _ hboth hhomes, hround _ hboth hhomes]

mutual

/-- What becomes of a tree does not depend on whether its loops are unrolled. -/
theorem piece_eq_of_unrolls : ∀ {d d' : Declaration}, Unrolls d d' →
    ∀ ν id, d.piece ν id = d'.piece ν id
  | _, _, .same d, _, _ => rfl
  | _, _, .unroll inside, _, id => piece_unroll _ _ _ _ (piece_eq_of_unrollsAll inside) id
  | _, _, .function inside, ν, id => by
    simp only [Declaration.piece, piece_eq_of_unrollsAll inside]
  | _, _, .branch inside, ν, id => by simp only [Declaration.piece, piece_eq_of_unrolls inside]
  | _, _, .choice inside other, ν, id => by
    simp only [Declaration.piece, piece_eq_of_unrolls inside, piece_eq_of_unrolls other]
  | _, _, .loop inside, ν, id => by simp only [Declaration.piece, piece_eq_of_unrolls inside]
  | _, _, .count inside, ν, id => by simp only [Declaration.piece, piece_eq_of_unrolls inside]
  | _, _, .block inside, ν, id => by simp only [Declaration.piece, piece_eq_of_unrollsAll inside]

theorem piece_eq_of_unrollsAll : ∀ {ds ds' : List Declaration}, UnrollsAll ds ds' →
    ∀ ν id, pieceOfBody ds ν id = pieceOfBody ds' ν id
  | _, _, .nil, _, _ => rfl
  | _, _, .cons first more, ν, id => by
    simp only [pieceOfBody, piece_eq_of_unrolls first, piece_eq_of_unrollsAll more]

end

end Unrolled

end ScriptEngine.Tree
