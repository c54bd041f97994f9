import ScriptEngine.Value
set_option autoImplicit false

/-!
# Machine: global variables

A table from names to values.  Defining a name again replaces its value;
assigning needs a name that is defined already.

`get_define_self` and `get_define_of_ne` say what a definition does to the
table's answers.
-/

namespace ScriptEngine

/-- The global variables, in the order in which they were first defined. -/
structure Globals where
  entries : List (String × Value) := []

instance : Inhabited Globals := ⟨{}⟩

namespace Globals

/-- The value of a name in a list of entries. -/
def lookup (name : String) : List (String × Value) → Option Value
  | [] => none
  | (n, v) :: later => if n = name then some v else lookup name later

/-- The entries with the value of a name replaced, or added at the end. -/
def update (name : String) (value : Value) :
    List (String × Value) → List (String × Value)
  | [] => [(name, value)]
  | (n, v) :: later =>
      if n = name then (n, value) :: later else (n, v) :: update name value later

/-- The value of a name. -/
def get? (g : Globals) (name : String) : Option Value := lookup name g.entries

/-- Gives a name a value. -/
def define (g : Globals) (name : String) (value : Value) : Globals :=
  ⟨update name value g.entries⟩

/-- Gives a name another value, if it has one. -/
def assign? (g : Globals) (name : String) (value : Value) : Option Globals :=
  match g.get? name with
  | some _ => some (g.define name value)
  | none => none

theorem lookup_update_self (name : String) (value : Value)
    (entries : List (String × Value)) :
    lookup name (update name value entries) = some value := by
  induction entries with
  | nil => simp [update, lookup]
  | cons e later ih =>
    unfold update
    split
    · next h => simp [lookup, h]
    · next h => simp [lookup, h, ih]

theorem lookup_update_of_ne {name other : String} (h : name ≠ other)
    (value : Value) (entries : List (String × Value)) :
    lookup other (update name value entries) = lookup other entries := by
  induction entries with
  | nil => simp [update, lookup, h]
  | cons e later ih =>
    unfold update
    split
    · next hn => simp [lookup, hn, h]
    · by_cases ho : e.1 = other
      · simp [lookup, ho]
      · simp [lookup, ho, ih]

theorem get_define_self (g : Globals) (name : String) (value : Value) :
    (g.define name value).get? name = some value :=
  lookup_update_self name value g.entries

theorem get_define_of_ne {name other : String} (h : name ≠ other) (g : Globals)
    (value : Value) : (g.define name value).get? other = g.get? other :=
  lookup_update_of_ne h value g.entries

/-- What is in the table after a definition is the new value or was there before. -/
theorem eq_or_get_of_get_define {g : Globals} {name other : String} {value w : Value}
    (h : (g.define name value).get? other = some w) : w = value ∨ g.get? other = some w := by
  by_cases hne : name = other
  · subst hne
    exact .inl (Option.some.inj (h.symm.trans (get_define_self g name value)))
  · exact .inr ((get_define_of_ne hne g value).symm.trans h)

end Globals

end ScriptEngine
