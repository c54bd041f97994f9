import ScriptEngine.Proofs.Loops.Declarations
set_option autoImplicit false

/-!
# Mentions of local variables

Which local variable a name stands for can be read off the tree: each variable gets a number where
it is declared, and a name stands for the newest variable of that name in sight (`Sight`).  What is
left of a program is a list of mentions, each of which says whether the variable is assigned to and
whether it belongs to a function further out.

A variable that is mentioned in a function inside of its own one is captured.  A program spares
captured variables if it assigns to none of them (`SparesCaptures`), neither inside nor outside of
the functions that capture them.
-/

namespace ScriptEngine.Tree

/-! ## Variables in sight -/

/-- A local variable, with the number that it got where it was declared. -/
structure Binding where
  name : String
  number : Nat
  deriving DecidableEq, Repr

/-- A name that stands for a local variable. -/
structure Mention where
  number : Nat
  isAssigned : Bool
  /-- The variable belongs to a function further out. -/
  isNested : Bool
  deriving DecidableEq, Repr

/-- The local variables that names can stand for. -/
structure Sight where
  /-- Those of the innermost function, newest first.  The last one is the callee, which has no name
  that could be written. -/
  bindings : List Binding
  /-- Those of the functions around, innermost first. -/
  around : List (List Binding)
  /-- No scope is open. -/
  isGlobal : Bool

/-- The newest variable of a name. -/
def newest? (x : String) (bs : List Binding) : Option Binding := bs.find? fun b => b.name = x

/-- Variables with numbers from `n` on, newest first. -/
def bindingsFrom (n : Nat) : List String → List Binding
  | [] => []
  | x :: xs => bindingsFrom (n + 1) xs ++ [⟨x, n⟩]

namespace Sight

variable (σ : Sight)

/-- With newer variables, newest first. -/
def declare (new : List Binding) : Sight := { σ with bindings := new ++ σ.bindings }

/-- In a scope. -/
def inner : Sight := { σ with isGlobal := false }

/-- What a declaration of a name adds.  It adds nothing where no scope is open: the variable is a
global one then. -/
def added (x : String) (n : Nat) : List Binding := if σ.isGlobal then [] else [⟨x, n⟩]

/-- In a function that is the variable number `n` and has some parameters. -/
def inside (x : String) (n : Nat) (parameters : List String) : Sight :=
  ⟨bindingsFrom (n + 1) ("" :: parameters), (σ.declare (σ.added x n)).bindings :: σ.around, false⟩

/-- The variable that a name stands for, if it is a local one. -/
def mention (x : String) (isAssigned : Bool) : List Mention :=
  match newest? x σ.bindings with
  | some b => [⟨b.number, isAssigned, false⟩]
  | none =>
      (σ.around.findSome? (newest? x)).toList.map fun b => ⟨b.number, isAssigned, true⟩

end Sight

/-! ## Expressions -/

mutual

/-- The mentions in an expression. -/
def Expression.mentions (σ : Sight) : Expression → List Mention
  | .literal _ => []
  | .name x => σ.mention x false
  | .assign x e => σ.mention x true ++ e.mentions σ
  | .unary _ e => e.mentions σ
  | .binary _ l r | .and l r | .or l r => l.mentions σ ++ r.mentions σ
  | .call callee es => callee.mentions σ ++ mentionsOfAll σ es
termination_by structural e => e

/-- The mentions in expressions in a row. -/
def mentionsOfAll (σ : Sight) : List Expression → List Mention
  | [] => []
  | e :: es => e.mentions σ ++ mentionsOfAll σ es
termination_by structural es => es

end

/-- The mentions in an expression that may be missing. -/
def mentionsOfMaybe (σ : Sight) : Option Expression → List Mention
  | some e => e.mentions σ
  | none => []

/-! ## Declarations -/

/-- What is found in a part of a tree. -/
structure Findings where
  mentions : List Mention := []
  /-- The local variables that are left behind, newest first. -/
  declared : List Binding := []
  /-- The number of the next variable. -/
  next : Nat

/-- What is found in a declaration of a variable, whose number is `n`. -/
def varFindings (σ : Sight) (n : Nat) (x : String) (value : Option Expression) : Findings :=
  ⟨mentionsOfMaybe (σ.declare (σ.added x n)) value, σ.added x n, n + 1⟩

/-- What is found in what a counted loop does first. -/
def Initializer.findings (σ : Sight) (n : Nat) : Initializer → Findings
  | .none => { next := n }
  | .var x value => varFindings σ n x value
  | .expression e => { mentions := e.mentions σ, next := n }

mutual

/-- What is found in a declaration.  The variables in it get numbers from `n` on. -/
def Declaration.findings : Declaration → Sight → Nat → Findings
  | .var x value, σ, n => varFindings σ n x value
  | .function x parameters body, σ, n =>
      let body := findingsOfBody body (σ.inside x n parameters) (n + 2 + parameters.length)
      ⟨body.mentions, σ.added x n, body.next⟩
  | .branch c yes, σ, n =>
      let yes := yes.findings σ.inner n
      ⟨c.mentions σ ++ yes.mentions, [], yes.next⟩
  | .choice c yes no, σ, n =>
      let yes := yes.findings σ.inner n
      let no := no.findings σ.inner yes.next
      ⟨c.mentions σ ++ yes.mentions ++ no.mentions, [], no.next⟩
  | .loop c body, σ, n =>
      let body := body.findings σ.inner n
      ⟨c.mentions σ ++ body.mentions, [], body.next⟩
  | .count first c step body, σ, n =>
      let start := first.findings σ.inner n
      let σ' := σ.inner.declare start.declared
      let body := body.findings σ' start.next
      ⟨start.mentions ++ (mentionsOfMaybe σ' c ++ (body.mentions ++ mentionsOfMaybe σ' step)), [],
        body.next⟩
  | .block body, σ, n =>
      let body := findingsOfBody body σ.inner n
      ⟨body.mentions, [], body.next⟩
  | .result value, σ, n => { mentions := mentionsOfMaybe σ value, next := n }
  | .expression e, σ, n => { mentions := e.mentions σ, next := n }
termination_by structural d => d

/-- What is found in declarations in a row. -/
def findingsOfBody : List Declaration → Sight → Nat → Findings
  | [], _, n => { next := n }
  | d :: ds, σ, n =>
      let first := d.findings σ n
      let more := findingsOfBody ds (σ.declare first.declared) first.next
      ⟨first.mentions ++ more.mentions, more.declared ++ first.declared, more.next⟩
termination_by structural ds => ds

end

/-! ## Captured variables -/

/-- What is in sight at the start of a program: nothing but the callee. -/
def Sight.start : Sight := ⟨[⟨"", 0⟩], [], true⟩

/-- All mentions in a program. -/
def mentionsIn (ds : List Declaration) : List Mention := (findingsOfBody ds .start 1).mentions

/-- Some function inside of the one that the variable belongs to mentions it. -/
def isCaptured (ms : List Mention) (n : Nat) : Bool := ms.any fun m => m.isNested && m.number == n

/-- No variable is assigned to that is captured somewhere. -/
def SparesCaptures (ds : List Declaration) : Prop :=
  ∀ m ∈ mentionsIn ds, m.isAssigned = true → isCaptured (mentionsIn ds) m.number = false

instance (ds : List Declaration) : Decidable (SparesCaptures ds) :=
  inferInstanceAs (Decidable (∀ m ∈ _, _ → _))

/-- The variable that is assigned to hides the one that is captured. -/
example : SparesCaptures [.block [.var "a" (some (.literal .nil)),
    .function "f" [] [.result (some (.name "a"))],
    .block [.var "a" none, .expression (.assign "a" (.literal .nil))]]] := by decide

/-- A function assigns to a variable of the function around. -/
example : ¬ SparesCaptures [.function "f" ["a"]
    [.function "g" [] [.expression (.assign "a" (.literal .nil))]]] := by decide

end ScriptEngine.Tree
