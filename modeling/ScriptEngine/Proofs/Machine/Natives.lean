import ScriptEngine.Machine.Host
set_option autoImplicit false

/-!
# Machine: what natives give

A native can do as it likes: give values that were kept from earlier calls, make up
code, or write to cells.  What is known of a program that calls natives therefore
rests on what they give, which is said of all calls to come: as long as nothing but
values of some kind is handed to the natives, they hand out nothing else
(`Host.Gives`).
-/

namespace ScriptEngine

variable {World : Type}

/-! ## Code in values -/

/-- The code of a value that can be called, with the cells for it. -/
def Value.code? : Value → Option (Function Value × Array Cell)
  | .closure c => some (c.function, c.cells)
  | .function g => some (g, #[])
  | _ => none

/-- A number, a string, a truth value, `nil` or a cell. -/
def Value.isPlain : Value → Bool
  | .number _ | .string _ | .boolean _ | .nil | .upvalue _ => true
  | _ => false

theorem Value.code_of_isPlain {v : Value} (h : v.isPlain = true) : v.code? = none := by
  cases v <;> first | rfl | cases h

/-! ## Calls of natives -/

/-- The result and all that is in the cells have the property. -/
structure Reply.HasOnly (P : Value → Prop) (r : Reply World) : Prop where
  result : ∀ v, r.result = .ok v → P v
  cells : ∀ v ∈ r.store.cells, P v

namespace Host

/-- What surroundings become through calls in which there are only values with the property,
among the arguments and in the cells. -/
inductive Reaches (host : Host World) (P : Value → Prop) (world : World) : World → Prop where
  | start : Reaches host P world world
  | call {w : World} (before : Reaches host P world w) (n : Native) {arguments : List Value}
      {store : Store} (harguments : ∀ v ∈ arguments, P v) (hcells : ∀ v ∈ store.cells, P v) :
      Reaches host P world (host.call n arguments store w).world

/-- From now on natives that get only values with the property give only such values. -/
def Gives (host : Host World) (P : Value → Prop) (world : World) : Prop :=
  ∀ w, host.Reaches P world w → ∀ (n : Native) (arguments : List Value) (store : Store),
    (∀ v ∈ arguments, P v) → (∀ v ∈ store.cells, P v) →
    (host.call n arguments store w).HasOnly P

/-- Beyond values with the property, natives give no more than they get. -/
def GivesBack (host : Host World) (P : Value → Prop) (world : World) : Prop :=
  ∀ Q : Value → Prop, (∀ v, P v → Q v) → host.Gives Q world

/-- Natives make up no code: the functions and closures that they give are some that they got. -/
def MakesNoCode (host : Host World) (world : World) : Prop :=
  host.GivesBack (fun v => v.code? = none) world

/-- A native gives a plain value or one of its arguments.  Whatever it does to the cells, it puts
nothing else into them than such values and what some cell held before. -/
structure IsHarmless (host : Host World) : Prop where
  result : ∀ n arguments store world v,
    (host.call n arguments store world).result = .ok v →
      v.isPlain = true ∨ v ∈ arguments
  cells : ∀ n arguments store world, ∀ v ∈ (host.call n arguments store world).store.cells,
    v.isPlain = true ∨ v ∈ arguments ∨ v ∈ store.cells

/-- No native takes a cell away from a program that may still hold it. -/
def KeepsCells (host : Host World) : Prop :=
  ∀ n arguments store world,
    store.cells.size ≤ (host.call n arguments store world).store.cells.size

section Giving

variable {host : Host World} {P Q : Value → Prop} {world w w' : World}

theorem Reaches.trans (h : host.Reaches P world w) (k : host.Reaches P w w') :
    host.Reaches P world w' := by
  induction k with
  | start => exact h
  | call _ n harguments hcells ih => exact ih.call n harguments hcells

theorem Reaches.mono (hPQ : ∀ v, P v → Q v) (h : host.Reaches P world w) :
    host.Reaches Q world w := by
  induction h with
  | start => exact .start
  | call _ n harguments hcells ih =>
    exact ih.call n (fun v hv => hPQ v (harguments v hv)) fun v hv => hPQ v (hcells v hv)

theorem Gives.of_reaches (h : host.Gives P world) (hw : host.Reaches P world w) :
    host.Gives P w :=
  fun w' hw' => h w' (hw.trans hw')

variable {n : Native} {arguments : List Value} {store : Store}

theorem Gives.reply (h : host.Gives P world) (harguments : ∀ v ∈ arguments, P v)
    (hcells : ∀ v ∈ store.cells, P v) : (host.call n arguments store world).HasOnly P :=
  h world .start n arguments store harguments hcells

/-- A call does not change what natives give. -/
theorem Gives.next (h : host.Gives P world) (harguments : ∀ v ∈ arguments, P v)
    (hcells : ∀ v ∈ store.cells, P v) : host.Gives P (host.call n arguments store world).world :=
  h.of_reaches (Reaches.start.call n harguments hcells)

theorem gives_of_forall (h : ∀ v, P v) (world : World) : host.Gives P world :=
  fun _ _ _ _ _ _ _ => ⟨fun v _ => h v, fun v _ => h v⟩

theorem GivesBack.gives (h : host.GivesBack P world) : host.Gives P world := h P fun _ => id

theorem GivesBack.mono (h : host.GivesBack P world) (hPQ : ∀ v, P v → Q v) :
    host.GivesBack Q world :=
  fun R hQR => h R fun v hv => hQR v (hPQ v hv)

theorem GivesBack.next (h : host.GivesBack P world) (harguments : ∀ v ∈ arguments, P v)
    (hcells : ∀ v ∈ store.cells, P v) :
    host.GivesBack P (host.call n arguments store world).world :=
  fun Q hPQ => (h Q hPQ).next (fun v hv => hPQ v (harguments v hv))
    fun v hv => hPQ v (hcells v hv)

theorem MakesNoCode.givesBack (h : host.MakesNoCode world) (hP : ∀ v, v.code? = none → P v) :
    host.GivesBack P world :=
  GivesBack.mono h hP

/-- Natives that give plain values or arguments give no more than they get. -/
theorem IsHarmless.givesBack (h : host.IsHarmless) (hplain : ∀ v, v.isPlain = true → P v)
    (world : World) : host.GivesBack P world := by
  intro Q hPQ w _ n arguments store harguments hcells
  refine ⟨fun v hv => ?_, fun v hv => ?_⟩
  · rcases h.result n arguments store w v hv with hv | hv
    · exact hPQ v (hplain v hv)
    · exact harguments v hv
  · rcases h.cells n arguments store w v hv with hv | hv | hv
    · exact hPQ v (hplain v hv)
    · exact harguments v hv
    · exact hcells v hv

end Giving

end Host

end ScriptEngine
