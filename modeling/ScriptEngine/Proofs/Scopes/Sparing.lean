import ScriptEngine.Proofs.Scopes.Functions
import ScriptEngine.Proofs.Scopes.Mentions
set_option autoImplicit false

/-!
# Programs that spare captured variables

If a program assigns to no captured variable, then the flow of its tree spares captured variables as
well (`Tree.spares_program`), where the marks on the stack say which variables are captured.  Two
facts about each part of the tree are enough for that (`Tree.Piece.Spares`): the flow turns the
marks of the variables in sight into those of the variables in sight behind it, and all variables
that closures capture have marks.
-/

namespace ScriptEngine

namespace Tree

open Compile

/-! ## Names and variables in sight -/

/-- The names of the variables in sight. -/
def Sight.naming (σ : Sight) : Naming :=
  ⟨σ.bindings.map Binding.name, σ.around.map (List.map Binding.name), σ.isGlobal⟩

/-- The variable in a slot of some function, where the functions are given innermost first. -/
def variableAt? (functions : List (List Binding)) (h : Home) : Option Binding :=
  (fromOldest? functions h.level).bind fun bs => fromOldest? bs h.slot

/-- The variable in a slot of the innermost function or of one further out. -/
def Sight.at? (σ : Sight) (h : Home) : Option Binding := variableAt? (σ.bindings :: σ.around) h

section Names

variable {σ : Sight} {bs new : List Binding} {around : List (List Binding)} {h : Home}

theorem fromOldest_map {α β : Type} (f : α → β) (as : List α) (i : Nat) :
    fromOldest? (as.map f) i = (fromOldest? as i).map f := by
  induction as with
  | nil => rfl
  | cons a as ih =>
    rw [List.map_cons, fromOldest?, fromOldest?, List.length_map]
    split
    · rfl
    · exact ih

theorem variableAt_cons (hlt : h.level < around.length) :
    variableAt? (bs :: around) h = variableAt? around h := by
  rw [variableAt?, fromOldest_cons_of_lt hlt, variableAt?]

theorem variableAt_of_level (hlevel : h.level = around.length) :
    variableAt? (bs :: around) h = fromOldest? bs h.slot := by
  rw [variableAt?, hlevel, fromOldest_cons_self]
  rfl

/-- Newer variables have other slots. -/
theorem Sight.at_declare (hslot : h.level = σ.around.length → h.slot < σ.bindings.length) :
    (σ.declare new).at? h = σ.at? h := by
  rcases Nat.lt_trichotomy h.level σ.around.length with hlt | heq | hgt
  · exact (variableAt_cons hlt).trans (variableAt_cons hlt).symm
  · exact (variableAt_of_level heq).trans
      ((fromOldest_append (hslot heq)).trans (variableAt_of_level heq).symm)
  · have hnone : ∀ bs : List Binding, variableAt? (bs :: σ.around) h = none := fun bs => by
      rw [variableAt?, fromOldest_eq_none_of_le hgt]
      rfl
    exact (hnone _).trans (hnone _).symm

/-- The newest variable of a name is in the slot of the name. -/
theorem position_cases (x : String) (bs : List Binding) :
    (position? x (bs.map Binding.name) = none ∧ newest? x bs = none) ∨
      ∃ k b, position? x (bs.map Binding.name) = some k ∧ newest? x bs = some b ∧
        fromOldest? bs k = some b := by
  induction bs with
  | nil => exact .inl ⟨rfl, rfl⟩
  | cons b older ih =>
    rw [List.map_cons, position?, newest?]
    by_cases hx : b.name = x
    · refine .inr ⟨older.length, b, ?_, ?_, fromOldest_cons_self b older⟩
      · rw [if_pos hx, List.length_map]
      · exact List.find?_cons_of_pos (decide_eq_true hx)
    · rw [if_neg hx, List.find?_cons_of_neg (by simpa using hx)]
      refine ih.imp_right ?_
      rintro ⟨k, c, hk, hc, hslot⟩
      exact ⟨k, c, hk, hc, (fromOldest_cons_of_lt (lt_of_fromOldest hslot)).trans hslot⟩

/-- So is the newest variable of a name in the functions around. -/
theorem homeIn_cases (x : String) (around : List (List Binding)) :
    (homeIn? x (around.map (List.map Binding.name)) = none ∧
        around.findSome? (newest? x) = none) ∨
      ∃ h b, homeIn? x (around.map (List.map Binding.name)) = some h ∧
        around.findSome? (newest? x) = some b ∧ h.level < around.length ∧
        variableAt? around h = some b := by
  induction around with
  | nil => exact .inl ⟨rfl, rfl⟩
  | cons bs around ih =>
    rw [List.map_cons, homeIn?, List.findSome?_cons]
    rcases position_cases x bs with ⟨hnone, hnewest⟩ | ⟨k, b, hk, hnewest, hslot⟩
    · rw [hnone, hnewest]
      refine ih.imp_right ?_
      rintro ⟨h, b, hhome, hfound, hlt, hat⟩
      exact ⟨h, b, hhome, hfound, Nat.lt_succ_of_lt hlt, (variableAt_cons hlt).trans hat⟩
    · rw [hk, hnewest, List.length_map]
      exact .inr ⟨⟨around.length, k⟩, b, rfl, rfl, Nat.lt_succ_self _,
        (variableAt_of_level rfl).trans hslot⟩

/-- What a name means. -/
theorem access_cases (σ : Sight) (x : String) :
    (∃ k b, σ.naming.access x = .slot k ∧ fromOldest? σ.bindings k = some b ∧
        ∀ isAssigned, σ.mention x isAssigned = [⟨b.number, isAssigned, false⟩]) ∨
      (∃ h b, σ.naming.access x = .captured h ∧ σ.at? h = some b ∧
        ∀ isAssigned, σ.mention x isAssigned = [⟨b.number, isAssigned, true⟩]) ∨
      σ.naming.access x = .global x := by
  unfold Naming.access Sight.mention
  rcases position_cases x σ.bindings with ⟨hnone, hnewest⟩ | ⟨k, b, hk, hnewest, hslot⟩
  · refine .inr ?_
    rw [show position? x σ.naming.names = none from hnone, hnewest]
    rcases homeIn_cases x σ.around with ⟨hglobal, -⟩ | ⟨h, b, hhome, hfound, hlt, hat⟩
    · rw [show homeIn? x σ.naming.around = none from hglobal]
      exact .inr rfl
    · rw [show homeIn? x σ.naming.around = some h from hhome, hfound]
      exact .inl ⟨h, b, rfl, (variableAt_cons hlt).trans hat, fun _ => rfl⟩
  · rw [show position? x σ.naming.names = some k from hk, hnewest]
    exact .inl ⟨k, b, rfl, hslot, fun _ => rfl⟩

theorem length_around_naming (σ : Sight) : σ.naming.around.length = σ.around.length :=
  List.length_map _

theorem length_names_naming (σ : Sight) : σ.naming.names.length = σ.bindings.length :=
  List.length_map _

theorem naming_declare (σ : Sight) (new : List Binding) :
    (σ.declare new).naming = σ.naming.declare (new.map Binding.name) := by
  unfold Sight.naming Sight.declare Naming.declare
  rw [List.map_append]

theorem naming_added (σ : Sight) (x : String) (n : Nat) :
    (σ.declare (σ.added x n)).naming = σ.naming.binding x := by
  rw [naming_declare, Sight.added, Naming.binding]
  by_cases hglobal : σ.isGlobal = true
  · rw [if_pos hglobal, if_pos (show σ.naming.isGlobal = true from hglobal)]
    rfl
  · rw [if_neg hglobal, if_neg (show ¬ σ.naming.isGlobal = true from hglobal)]
    rfl

theorem names_bindingsFrom (n : Nat) (xs : List String) :
    (bindingsFrom n xs).map Binding.name = xs.reverse := by
  induction xs generalizing n with
  | nil => rfl
  | cons x xs ih =>
    rw [bindingsFrom, List.map_append, ih, List.reverse_cons]
    rfl

theorem naming_inside (σ : Sight) (x : String) (n : Nat) (parameters : List String) :
    (σ.inside x n parameters).naming =
      ⟨parameters.reverse ++ [""], (σ.naming.binding x).names :: σ.naming.around, false⟩ := by
  rw [← naming_added σ x n]
  unfold Sight.inside Sight.naming
  rw [names_bindingsFrom, List.reverse_cons]
  rfl

end Names

/-! ## Marks of variables -/

/-- Which variables are captured. -/
def marksOf (ms : List Mention) (bs : List Binding) : Marks :=
  bs.map fun b => isCaptured ms b.number

/-- The variables in sight that are not captured have no marks. -/
def Fits (ms : List Mention) (σ : Sight) (Γ : Marks) : Prop :=
  ∀ k b, fromOldest? σ.bindings k = some b → isCaptured ms b.number = false →
    fromOldest? Γ k ≠ some true

/-- The homes are those of captured variables in sight. -/
def Covers (ms : List Mention) (σ : Sight) (homes : List Home) : Prop :=
  ∀ h ∈ homes, ∃ b, σ.at? h = some b ∧ isCaptured ms b.number = true

section Marks

variable {ms : List Mention} {σ : Sight} {Γ : Marks} {b : Bool} {homes more : List Home}
  {new : List Binding}

theorem fits_marksOf (ms : List Mention) (σ : Sight) : Fits ms σ (marksOf ms σ.bindings) := by
  intro k b hslot hfree
  rw [marksOf, fromOldest_map, hslot, Option.map_some, hfree]
  exact nofun

theorem Fits.older (h : Fits ms σ (b :: Γ)) : Fits ms σ Γ := by
  intro k c hslot hfree hmark
  refine h k c hslot hfree ?_
  rw [fromOldest_cons_of_lt (lt_of_fromOldest hmark), hmark]

/-- A temporary value has no mark. -/
theorem Fits.temporary (h : Fits ms σ Γ) : Fits ms σ (false :: Γ) := by
  intro k c hslot hfree hmark
  rw [fromOldest?] at hmark
  split at hmark
  · cases hmark
  · exact h k c hslot hfree hmark

theorem covers_nil : Covers ms σ [] := List.forall_mem_nil _

theorem Covers.append (h : Covers ms σ homes) (k : Covers ms σ more) :
    Covers ms σ (homes ++ more) := List.forall_mem_append.mpr ⟨h, k⟩

theorem Covers.declare (h : Covers ms σ homes) : Covers ms (σ.declare new) homes := by
  intro home hmem
  obtain ⟨c, hat, hcaptured⟩ := h home hmem
  refine ⟨c, (Sight.at_declare fun hlevel => ?_).trans hat, hcaptured⟩
  rw [Sight.at?, variableAt_of_level hlevel] at hat
  exact lt_of_fromOldest hat

end Marks

/-! ## Expressions -/

/-- No variable is assigned to that is captured. -/
def Spared (ms : List Mention) : Prop :=
  ∀ m ∈ ms, m.isAssigned = true → isCaptured ms m.number = false

/-- The part is a value, whose flow fits all marks that fit the variables in sight. -/
structure Piece.SparesValue (ms : List Mention) (σ : Sight) (p : Piece) : Prop where
  flow : ∀ (level : Nat) (Γ : Marks) (b : Bool), Fits ms σ (b :: Γ) →
    p.flow.Spares level Γ (b :: Γ)
  homes : Covers ms σ p.homes

section Expressions

variable {ms : List Mention} {σ : Sight} {level : Nat} {Γ Δ : Marks} {b : Bool} {p q : Piece}
  {x : String} {isAssigned : Bool}

theorem spares_literal (l : Literal) (b : Bool) : l.flow.Spares level Γ (b :: Γ) := by
  have hpooled : (Flow.pooled .constant l.value).Spares level Γ (b :: Γ) :=
    Flow.spares_pooled [b] rfl rfl
  cases l with
  | boolean t => cases t <;> exact Flow.spares_direct nofun [b] rfl rfl
  | nil => exact Flow.spares_direct nofun [b] rfl rfl
  | number | string => exact hpooled

theorem toNat_of_lt {k : Nat} (h : k < byteRange) : k.toUInt8.toNat = k := Nat.mod_eq_of_lt h

/-- Reading a variable. -/
theorem spares_get (a : Access) (b : Bool) : a.get.Spares level Γ (b :: Γ) := by
  cases a with
  | slot k =>
    show (numbered .getLocal k).Spares level Γ (b :: Γ)
    unfold numbered
    split
    · exact Flow.spares_direct nofun [b] rfl rfl
    · exact .absent
  | captured h => exact .captured
  | global x => exact Flow.spares_pooled [b] rfl rfl

theorem isCaptured_of_mem {n : Nat} (h : ⟨n, isAssigned, true⟩ ∈ ms) : isCaptured ms n = true :=
  List.any_eq_true.mpr ⟨_, h, by simp⟩

/-- Writing a variable, which is not captured then. -/
theorem spares_set (hspared : Spared ms) (hmentions : ∀ m ∈ σ.mention x true, m ∈ ms)
    (hfits : Fits ms σ Γ) : (σ.naming.access x).set.Spares level Γ Γ := by
  rcases access_cases σ x with ⟨k, c, haccess, hslot, hmention⟩ | ⟨h, c, haccess, -, hmention⟩ |
    haccess
  · have hfree := hspared _ (hmentions ⟨c.number, true, false⟩ (by simp [hmention])) rfl
    rw [haccess, Access.set, numbered]
    split
    · next hbyte =>
      refine Flow.spares_setLocal ?_
      rw [toNat_of_lt hbyte]
      exact hfits k c hslot hfree
    · exact .absent
  · have hmem := hmentions ⟨c.number, true, true⟩ (by simp [hmention])
    exact absurd ((hspared _ hmem rfl).symm.trans (isCaptured_of_mem hmem)) Bool.false_ne_true
  · rw [haccess]
    exact Flow.spares_pooled [] rfl rfl

theorem covers_access (hmentions : ∀ m ∈ σ.mention x isAssigned, m ∈ ms) :
    Covers ms σ (σ.naming.access x).homes := by
  rcases access_cases σ x with ⟨k, c, haccess, -⟩ | ⟨h, c, haccess, hat, hmention⟩ | haccess
  · rw [haccess]
    exact covers_nil
  · rw [haccess]
    refine List.forall_mem_singleton.mpr ⟨c, hat, ?_⟩
    exact isCaptured_of_mem (hmentions ⟨c.number, isAssigned, true⟩ (by simp [hmention]))
  · rw [haccess]
    exact covers_nil

namespace Piece.SparesValue

/-- A value that an instruction makes another one of. -/
theorem unary (h : p.SparesValue ms σ) (op : UnaryOperator) :
    (p ++ .ops [op.code]).SparesValue ms σ where
  flow level Γ b hfits := by
    refine (h.flow level Γ false hfits.older.temporary).append ?_
    cases op <;> exact Flow.spares_direct nofun [b] rfl rfl
  homes := h.homes.append covers_nil

theorem spares_binary (op : BinaryOperator) (b c d : Bool) (Γ : Marks) :
    (Flow.plain op.code).Spares level (b :: c :: Γ) (d :: Γ) := by
  have hone : ∀ code : Opcode, code ≠ .setLocal → (Instruction.mk 0 0 code []).gives = 1 →
      (Instruction.mk 0 0 code []).takes = 2 →
      (Flow.plain [code]).Spares level (b :: c :: Γ) (d :: Γ) := by
    intro code hne hgives htakes
    exact Flow.spares_direct hne [d] hgives.symm (by rw [htakes]; rfl)
  have hnot : (Flow.plain [.not]).Spares level (d :: Γ) (d :: Γ) :=
    Flow.spares_direct nofun [d] rfl rfl
  cases op with
  | unequal => exact (hone .equal nofun rfl rfl).append hnot
  | greaterEqual => exact (hone .less nofun rfl rfl).append hnot
  | lessEqual => exact (hone .greater nofun rfl rfl).append hnot
  | _ => exact hone _ nofun rfl rfl

theorem binary (hp : p.SparesValue ms σ) (hq : q.SparesValue ms σ) (op : BinaryOperator) :
    (p ++ q ++ .ops op.code).SparesValue ms σ where
  flow level Γ b hfits := by
    -- the operands are temporary values, also in the slot of a variable that gets its first value
    have hleft := hp.flow level Γ false hfits.older.temporary
    have hright := hq.flow level (false :: Γ) false hfits.older.temporary.temporary
    exact (hleft.append hright).append (spares_binary op false false b Γ)
  homes := (hp.homes.append hq.homes).append covers_nil

/-- The left operand of `and` stays on the stack, or the right one takes its place. -/
theorem and (hp : p.SparesValue ms σ) (hq : q.SparesValue ms σ) :
    (p ++ .split (.ops [.pop] ++ q) {}).SparesValue ms σ where
  flow level Γ b hfits := by
    have hright := (Flow.spares_pop b Γ).append (hq.flow level Γ b hfits)
    exact (hp.flow level Γ b hfits).append (.split hright .nil)
  homes := hp.homes.append ((covers_nil.append hq.homes).append covers_nil)

theorem or (hp : p.SparesValue ms σ) (hq : q.SparesValue ms σ) :
    (p ++ .split {} (.ops [.pop] ++ q)).SparesValue ms σ where
  flow level Γ b hfits := by
    have hright := (Flow.spares_pop b Γ).append (hq.flow level Γ b hfits)
    exact (hp.flow level Γ b hfits).append (.split .nil hright)
  homes := hp.homes.append (covers_nil.append (covers_nil.append hq.homes))

theorem assign (hspared : Spared ms) (hmentions : ∀ m ∈ σ.mention x true, m ∈ ms)
    (h : p.SparesValue ms σ) : (({ homes := (σ.naming.access x).homes } : Piece) ++ p ++
      { flow := (σ.naming.access x).set }).SparesValue ms σ where
  flow level Γ b hfits :=
    (h.flow level Γ b hfits).append (spares_set hspared hmentions hfits)
  homes := ((covers_access hmentions).append h.homes).append covers_nil

end Piece.SparesValue

/-- The parts are values in a row, which are not captured. -/
structure Piece.SparesValues (ms : List Mention) (σ : Sight) (n : Nat) (p : Piece) : Prop where
  flow : ∀ (level : Nat) (Γ : Marks), Fits ms σ Γ →
    p.flow.Spares level Γ (List.replicate n false ++ Γ)
  homes : Covers ms σ p.homes

theorem Piece.SparesValues.cons {n : Nat} (hp : p.SparesValue ms σ) (hq : q.SparesValues ms σ n) :
    (p ++ q).SparesValues ms σ (n + 1) where
  flow level Γ hfits := by
    rw [List.replicate_succ', List.append_assoc]
    exact (hp.flow level Γ false hfits.temporary).append (hq.flow level _ hfits.temporary)
  homes := hp.homes.append hq.homes

/-- A call takes the callee and the arguments off the stack. -/
theorem Piece.SparesValue.call {n : Nat} (hp : p.SparesValue ms σ) (hq : q.SparesValues ms σ n) :
    (p ++ q ++ { flow := numbered .call n }).SparesValue ms σ where
  flow level Γ b hfits := by
    have hcallee := hp.flow level Γ false hfits.older.temporary
    have hvalues := hq.flow level (false :: Γ) hfits.older.temporary
    refine (hcallee.append hvalues).append ?_
    show (numbered .call n).Spares _ _ _
    unfold numbered
    split
    · next hbyte =>
      refine Flow.spares_direct nofun [b] rfl ?_
      have htaken : List.replicate n false ++ false :: Γ = List.replicate (n + 1) false ++ Γ := by
        rw [List.replicate_succ', List.append_assoc]
        rfl
      show b :: Γ = b :: (List.replicate n false ++ false :: Γ).drop (n.toUInt8.toNat + 1)
      rw [toNat_of_lt hbyte, htaken, List.drop_left' List.length_replicate]
    · exact .absent
  homes := (hp.homes.append hq.homes).append covers_nil

mutual

/-- An expression that assigns to no captured variable. -/
theorem Expression.spares (hspared : Spared ms) : ∀ (e : Expression) (σ : Sight),
    (∀ m ∈ e.mentions σ, m ∈ ms) → (e.piece σ.naming).SparesValue ms σ
  | .literal l, _, _ => ⟨fun _ _ b _ => spares_literal l b, covers_nil⟩
  | .name _, _, hmentions => ⟨fun _ _ b _ => spares_get _ b, covers_access hmentions⟩
  | .assign _ e, σ, hmentions =>
    have hboth := List.forall_mem_append.mp hmentions
    (e.spares hspared σ hboth.2).assign hspared hboth.1
  | .unary op e, σ, hmentions => (e.spares hspared σ hmentions).unary op
  | .binary op l r, σ, hmentions =>
    have hboth := List.forall_mem_append.mp hmentions
    (l.spares hspared σ hboth.1).binary (r.spares hspared σ hboth.2) op
  | .and l r, σ, hmentions =>
    have hboth := List.forall_mem_append.mp hmentions
    (l.spares hspared σ hboth.1).and (r.spares hspared σ hboth.2)
  | .or l r, σ, hmentions =>
    have hboth := List.forall_mem_append.mp hmentions
    (l.spares hspared σ hboth.1).or (r.spares hspared σ hboth.2)
  | .call callee es, σ, hmentions =>
    have hboth := List.forall_mem_append.mp hmentions
    (callee.spares hspared σ hboth.1).call (spares_pieceOfAll hspared es σ hboth.2)
termination_by structural e => e

theorem spares_pieceOfAll (hspared : Spared ms) : ∀ (es : List Expression) (σ : Sight),
    (∀ m ∈ mentionsOfAll σ es, m ∈ ms) → (pieceOfAll σ.naming es).SparesValues ms σ es.length
  | [], _, _ => ⟨fun _ _ _ => .nil, covers_nil⟩
  | e :: es, σ, hmentions =>
    have hboth := List.forall_mem_append.mp hmentions
    (spares_pieceOfAll hspared es σ hboth.2).cons (e.spares hspared σ hboth.1)
termination_by structural es => es

end

end Expressions

/-! ## Declarations -/

/-- The part declares some variables, and spares captured ones. -/
structure Piece.Spares (ms : List Mention) (σ : Sight) (new : List Binding) (p : Piece) : Prop where
  declared : p.declared = new.map Binding.name
  flow : p.flow.Spares σ.around.length (marksOf ms σ.bindings) (marksOf ms (new ++ σ.bindings))
  homes : Covers ms (σ.declare new) p.homes

section Declarations

variable {ms : List Mention} {σ : Sight} {new more : List Binding} {p q : Piece} {c : Piece}
  {x : String} {n : Nat}

namespace Piece

theorem spares_nothing : ({} : Piece).Spares ms σ [] := ⟨rfl, .nil, covers_nil⟩

theorem Spares.append (hp : p.Spares ms σ new) (hq : q.Spares ms (σ.declare new) more) :
    (p ++ q).Spares ms σ (more ++ new) where
  declared := by rw [append_def, hp.declared, hq.declared, List.map_append]
  flow := by
    rw [List.append_assoc]
    exact hp.flow.append hq.flow
  homes := by
    have hboth : Covers ms ((σ.declare new).declare more) (p.homes ++ q.homes) :=
      hp.homes.declare.append hq.homes
    unfold Sight.declare at hboth ⊢
    rwa [List.append_assoc]

/-- A value that is dropped. -/
theorem SparesValue.dropped (h : p.SparesValue ms σ) (hdeclared : p.declared = []) :
    (p ++ .ops [.pop]).Spares ms σ [] where
  declared := by rw [append_def, hdeclared]; rfl
  flow := (h.flow _ _ false (fits_marksOf ms σ).temporary).append (Flow.spares_pop _ _)
  homes := h.homes.append covers_nil

/-- A value that is returned. -/
theorem SparesValue.result (h : p.SparesValue ms σ) (hdeclared : p.declared = []) :
    (p ++ .ops [.return]).Spares ms σ [] where
  declared := by rw [append_def, hdeclared]; rfl
  flow := (h.flow _ _ false (fits_marksOf ms σ).temporary).append .returns
  homes := h.homes.append covers_nil

/-- One of two parts, by a condition. -/
theorem SparesValue.choice (hc : c.SparesValue ms σ) (hdeclared : c.declared = [])
    (hp : p.Spares ms σ []) (hq : q.Spares ms σ []) :
    (c ++ .split (.ops [.pop] ++ p) (.ops [.pop] ++ q)).Spares ms σ [] where
  declared := by rw [append_def, hdeclared]; rfl
  flow := (hc.flow _ _ false (fits_marksOf ms σ).temporary).append
    (.split ((Flow.spares_pop _ _).append hp.flow) ((Flow.spares_pop _ _).append hq.flow))
  homes := hc.homes.append ((covers_nil.append hp.homes).append (covers_nil.append hq.homes))

theorem Spares.repeated {condition : Option Piece}
    (hcondition : ∀ c ∈ condition, c.SparesValue ms σ) (hp : p.Spares ms σ []) :
    (repeated condition p).Spares ms σ [] := by
  cases condition with
  | none => exact ⟨rfl, .forever hp.flow, hp.homes⟩
  | some c =>
    have hc := hcondition c rfl
    exact ⟨rfl, .loop (hc.flow _ _ false (fits_marksOf ms σ).temporary) hp.flow,
      hc.homes.append hp.homes⟩

/-- Variables at the end of their scope. -/
theorem spares_retirements {level base : Nat} {homes : List Home} {Γ : Marks} (Δ : Marks) :
    (Flow.plain (retirements level base homes Δ.length)).Spares level (Δ ++ Γ) Γ := by
  induction Δ with
  | nil => exact .nil
  | cons b Δ ih =>
    refine Flow.Spares.append ?_ ih
    split
    · exact Flow.spares_direct nofun [] rfl rfl
    · exact Flow.spares_pop b _

theorem Spares.inScope (h : p.Spares ms σ.inner new) : (inScope σ.naming p).Spares ms σ [] where
  declared := rfl
  flow := by
    have hlength : p.declared.length = (marksOf ms new).length := by
      rw [h.declared, List.length_map, marksOf, List.length_map]
    have hflow := h.flow
    rw [marksOf, marksOf, List.map_append] at hflow
    refine hflow.append ?_
    rw [hlength, length_around_naming]
    exact spares_retirements _
  homes := by
    intro home hmem
    obtain ⟨hinside, hkept⟩ := List.mem_filter.mp hmem
    rw [length_around_naming, length_names_naming] at hkept
    obtain ⟨b, hat, hcaptured⟩ := h.homes home hinside
    -- what remains are variables that were in sight before
    have hsight : (σ.inner.declare new).at? home = σ.inner.at? home :=
      Sight.at_declare fun hlevel => Nat.lt_of_not_le fun hslot => by
        have hlevel' : home.level = σ.around.length := hlevel
        have hslot' : σ.bindings.length ≤ home.slot := hslot
        simp [isRetired, hlevel', hslot'] at hkept
    exact ⟨b, hsight.symm.trans hat, hcaptured⟩

/-- The mark of a variable that is declared, which is a global one where no scope is open. -/
def markAdded (ms : List Mention) (σ : Sight) (n : Nat) : Bool := !σ.isGlobal && isCaptured ms n

theorem fits_added (ms : List Mention) (σ : Sight) (x : String) (n : Nat) :
    Fits ms (σ.declare (σ.added x n)) (markAdded ms σ n :: marksOf ms σ.bindings) := by
  unfold Sight.added markAdded
  by_cases hglobal : σ.isGlobal = true
  · rw [if_pos hglobal, hglobal]
    exact (fits_marksOf ms σ).temporary
  · rw [if_neg hglobal, Bool.eq_false_of_not_eq_true hglobal]
    exact fits_marksOf ms (σ.declare [⟨x, n⟩])

/-- A variable that has a mark has it when it gets its value. -/
theorem marked_added (x : String) {k : Nat}
    (h : fromOldest? (marksOf ms (σ.added x n ++ σ.bindings)) k = some true) :
    fromOldest? (markAdded ms σ n :: marksOf ms σ.bindings) k = some true := by
  unfold Sight.added at h
  unfold markAdded
  by_cases hglobal : σ.isGlobal = true
  · rw [if_pos hglobal, List.nil_append] at h
    rwa [fromOldest_cons_of_lt (lt_of_fromOldest h)]
  · rw [if_neg hglobal] at h
    rw [Bool.eq_false_of_not_eq_true hglobal]
    exact h

/-- The variable that was declared gets the value on top of the stack. -/
theorem spares_bound (ms : List Mention) (σ : Sight) (x : String) (n level : Nat) :
    (bound σ.naming x).flow.Spares level (markAdded ms σ n :: marksOf ms σ.bindings)
      (marksOf ms (σ.added x n ++ σ.bindings)) := by
  unfold bound Sight.added markAdded
  by_cases hglobal : σ.isGlobal = true
  · rw [if_pos (show σ.naming.isGlobal = true from hglobal), if_pos hglobal]
    exact Flow.spares_pooled [] rfl rfl
  · rw [if_neg (show ¬ σ.naming.isGlobal = true from hglobal), if_neg hglobal,
      Bool.eq_false_of_not_eq_true hglobal]
    exact .nil

theorem declared_bound (σ : Sight) (x : String) (n : Nat) :
    (bound σ.naming x).declared = (σ.added x n).map Binding.name := by
  unfold bound Sight.added
  by_cases hglobal : σ.isGlobal = true
  · rw [if_pos (show σ.naming.isGlobal = true from hglobal), if_pos hglobal]
    rfl
  · rw [if_neg (show ¬ σ.naming.isGlobal = true from hglobal), if_neg hglobal]
    rfl

theorem homes_bound (ν : Naming) (x : String) : (bound ν x).homes = [] := by
  unfold bound
  split <;> rfl

/-- A variable that gets a value, which may mention the variable itself. -/
theorem SparesValue.bound (h : p.SparesValue ms (σ.declare (σ.added x n)))
    (hdeclared : p.declared = []) : (p ++ bound σ.naming x).Spares ms σ (σ.added x n) where
  declared := by rw [append_def, hdeclared, List.append_nil, declared_bound σ x n]
  flow := (h.flow _ _ _ (fits_added ms σ x n)).append (spares_bound ms σ x n _)
  homes := h.homes.append (by rw [homes_bound]; exact covers_nil)

theorem length_bindingsFrom (n : Nat) (xs : List String) :
    (bindingsFrom n xs).length = xs.length := by
  rw [← List.length_map (f := Binding.name), names_bindingsFrom, List.length_reverse]

/-- What a function captures is captured from the functions around, or belongs to it. -/
theorem at_inside {parameters : List String} {h : Home} (hlevel : h.level ≤ σ.around.length) :
    ((σ.inside x n parameters).declare new).at? h = (σ.declare (σ.added x n)).at? h :=
  variableAt_cons (Nat.lt_succ_of_le hlevel)

/-- A closure captures variables that have marks. -/
theorem Spares.function {parameters : List String} {id : Identity}
    (h : p.Spares ms (σ.inside x n parameters) new) :
    (function σ.naming.around.length id x parameters.length p ++ bound σ.naming x).Spares ms σ
      (σ.added x n) where
  declared := (List.append_nil _).trans (declared_bound σ x n)
  flow := by
    rw [length_around_naming]
    refine Flow.Spares.append ?_ (spares_bound ms σ x n _)
    -- the function may capture its own variable, whose slot the closure is put into
    refine .closure ?_ h.flow rfl fun home hmem hlevel => marked_added x ?_
    · rw [marksOf, List.length_map]
      show (bindingsFrom _ _).length = _
      rw [length_bindingsFrom, List.length_cons, Nat.add_comm]
    · obtain ⟨b, hat, hcaptured⟩ := h.homes home (List.mem_filter.mp hmem).1
      rw [at_inside (Nat.le_of_eq hlevel)] at hat
      have hslot : fromOldest? (σ.added x n ++ σ.bindings) home.slot = some b :=
        (variableAt_of_level hlevel).symm.trans hat
      rw [marksOf, fromOldest_map, hslot, Option.map_some, hcaptured]
  homes := by
    rw [append_def, homes_bound, List.append_nil]
    intro home hmem
    obtain ⟨hinside, hlevel⟩ := List.mem_filter.mp hmem
    rw [length_around_naming, decide_eq_true_iff] at hlevel
    obtain ⟨b, hat, hcaptured⟩ := h.homes home hinside
    exact ⟨b, (at_inside hlevel).symm.trans hat, hcaptured⟩

end Piece

/-- A value, or `nil` where it is missing. -/
theorem spares_valuePiece (hspared : Spared ms) {value : Option Expression}
    (hmentions : ∀ m ∈ mentionsOfMaybe σ value, m ∈ ms) :
    (valuePiece σ.naming value).SparesValue ms σ := by
  cases value with
  | none => exact ⟨fun _ _ b _ => Flow.spares_direct nofun [b] rfl rfl, covers_nil⟩
  | some e => exact e.spares hspared σ hmentions

theorem declared_valuePiece (ν : Naming) (value : Option Expression) :
    (valuePiece ν value).declared = [] := by
  cases value with
  | none => rfl
  | some e => exact e.isValue.declared

theorem spares_varPiece (hspared : Spared ms) {value : Option Expression}
    (hmentions : ∀ m ∈ (varFindings σ n x value).mentions, m ∈ ms) :
    (varPiece σ.naming x value).Spares ms σ (varFindings σ n x value).declared := by
  unfold varPiece
  rw [← naming_added σ x n]
  exact (spares_valuePiece hspared hmentions).bound (declared_valuePiece _ _)

theorem spares_droppedPiece (hspared : Spared ms) {e : Option Expression}
    (hmentions : ∀ m ∈ mentionsOfMaybe σ e, m ∈ ms) :
    (droppedPiece σ.naming e).Spares ms σ [] := by
  cases e with
  | none => exact Piece.spares_nothing
  | some e => exact (e.spares hspared σ hmentions).dropped e.isValue.declared

theorem spares_condition (hspared : Spared ms) {c : Option Expression}
    (hmentions : ∀ m ∈ mentionsOfMaybe σ c, m ∈ ms) :
    ∀ p ∈ c.map (Expression.piece σ.naming), p.SparesValue ms σ := by
  intro p hp
  obtain ⟨e, rfl, rfl⟩ := Option.map_eq_some_iff.mp hp
  exact e.spares hspared σ hmentions

theorem spares_initializer (hspared : Spared ms) {first : Initializer}
    (hmentions : ∀ m ∈ (first.findings σ n).mentions, m ∈ ms) :
    (first.piece σ.naming).Spares ms σ (first.findings σ n).declared := by
  cases first with
  | none => exact Piece.spares_nothing
  | var x value => exact spares_varPiece hspared hmentions
  | expression e => exact (e.spares hspared σ hmentions).dropped e.isValue.declared

mutual

/-- A declaration that assigns to no captured variable. -/
theorem Declaration.spares (hspared : Spared ms) : ∀ (d : Declaration) (σ : Sight) (n : Nat)
    (id : Identity), (∀ m ∈ (d.findings σ n).mentions, m ∈ ms) →
      (d.piece σ.naming id).Spares ms σ (d.findings σ n).declared
  | .var _ _, _, _, _, hmentions => spares_varPiece hspared hmentions
  | .function x parameters body, σ, n, id, hmentions => by
    have hbody := spares_findingsOfBody hspared body (σ.inside x n parameters)
      (n + 2 + parameters.length) id hmentions
    rw [naming_inside] at hbody
    exact hbody.function
  | .branch c yes, σ, n, id, hmentions => by
    have hboth := List.forall_mem_append.mp hmentions
    have hyes := (yes.spares hspared σ.inner n id hboth.2).inScope
    exact (c.spares hspared σ hboth.1).choice c.isValue.declared hyes Piece.spares_nothing
  | .choice c yes no, σ, n, id, hmentions => by
    have hboth := List.forall_mem_append.mp hmentions
    have hfirst := List.forall_mem_append.mp hboth.1
    have hyes := (yes.spares hspared σ.inner n id hfirst.2).inScope
    have hno := (no.spares hspared σ.inner _
      (id + (yes.piece σ.inner.naming id).functions) hboth.2).inScope
    exact (c.spares hspared σ hfirst.1).choice c.isValue.declared hyes hno
  | .loop c body, σ, n, id, hmentions => by
    have hboth := List.forall_mem_append.mp hmentions
    have hbody := (body.spares hspared σ.inner n id hboth.2).inScope
    exact hbody.repeated fun _ h => Option.some.inj h ▸ c.spares hspared σ hboth.1
  | .count first c step body, σ, n, id, hmentions => by
    have hstart := List.forall_mem_append.mp hmentions
    have hround := List.forall_mem_append.mp hstart.2
    have hparts := List.forall_mem_append.mp hround.2
    have hfirst := spares_initializer hspared hstart.1
    let σ' := σ.inner.declare (first.findings σ.inner n).declared
    have hinside : Piece.Spares ms σ'.inner _ (body.piece σ'.naming id) :=
      body.spares hspared σ' _ id hparts.1
    have hstep : Piece.Spares ms σ' [] _ := spares_droppedPiece hspared hparts.2
    have hrepeated := (hinside.inScope.append hstep).repeated (spares_condition hspared hround.1)
    rw [naming_declare, ← hfirst.declared] at hrepeated
    exact (hfirst.append hrepeated).inScope
  | .block body, σ, n, id, hmentions =>
    (spares_findingsOfBody hspared body σ.inner n id hmentions).inScope
  | .result value, σ, _, _, hmentions =>
    (spares_valuePiece hspared hmentions).result (declared_valuePiece _ _)
  | .expression e, σ, _, _, hmentions =>
    (e.spares hspared σ hmentions).dropped e.isValue.declared
termination_by structural d => d

/-- Declarations in a row that assign to no captured variable. -/
theorem spares_findingsOfBody (hspared : Spared ms) : ∀ (ds : List Declaration) (σ : Sight)
    (n : Nat) (id : Identity), (∀ m ∈ (findingsOfBody ds σ n).mentions, m ∈ ms) →
      (pieceOfBody ds σ.naming id).Spares ms σ (findingsOfBody ds σ n).declared
  | [], _, _, _, _ => Piece.spares_nothing
  | d :: ds, σ, n, id, hmentions => by
    have hboth := List.forall_mem_append.mp hmentions
    have hfirst := d.spares hspared σ n id hboth.1
    have hmore := spares_findingsOfBody hspared ds _ _
      (id + (d.piece σ.naming id).functions) hboth.2
    rw [naming_declare, ← hfirst.declared] at hmore
    exact hfirst.append hmore
termination_by structural ds => ds

end

/-- The flow of a program that assigns to no captured variable spares captured variables. -/
theorem spares_program {ds : List Declaration} (h : SparesCaptures ds) (id : Identity) :
    (pieceOfBody ds ⟨[""], [], true⟩ id).flow.Spares 0
      (marksOf (mentionsIn ds) Sight.start.bindings)
      (marksOf (mentionsIn ds) ((findingsOfBody ds .start 1).declared ++ Sight.start.bindings)) :=
  (spares_findingsOfBody h ds .start 1 id fun _ hm => hm).flow

end Declarations

end Tree

/-- No function of a script assigns to a captured variable if the program does not. -/
theorem sparesCaptures_of_program {firstId : Identity} {source : String}
    {ds : List Tree.Declaration} {script p : Function Value} (hspelled : Tree.Spelled source ds)
    (h : Tree.SparesCaptures ds) (hok : (compile firstId source).outcome = .ok script)
    (hp : p.Within script) : p.SparesCaptures :=
  sparesCaptures_of_spares hspelled hok rfl (Tree.spares_program h firstId) hp

end ScriptEngine
