import ScriptEngine.Proofs.Isolation
set_option autoImplicit false

/-!
# Two sources on one another: identities

Code cannot make up an identity.  If an identity is handed out before a run, but nothing that the
run starts with has it, then nothing that the run leads to has it either.  That is seen by running
the same code twice, with the spare identities matched differently: what the runs lead to matches
as well, and so does not have an identity that matches another one (`Machine.Matches.restrict`).
-/

namespace ScriptEngine

open Machine

variable {World : Type}

/-! ## More and fewer objects -/

namespace Matching

/-- The objects that `R` relates match as well. -/
def adding (M : Matching) (R : Identity → Identity → Prop) : Matching :=
  { M with ids := fun a b => M.ids a b ∨ R a b }

/-- Only objects of the identities in `K` match, and only cells that match themselves in `Q`. -/
def restrict (M : Matching) (K : Identity → Prop) (Q : Matching) : Matching :=
  { M with
    ids := fun a b => M.ids a b ∧ K b
    cells := fun c d => M.cells c d ∧ Q.cells d d }

/-- Lines do not matter. -/
def withoutLines (M : Matching) : Matching := { M with lines := fun _ _ => True }

/-- What matches is the same object. -/
structure IsIdentity (M : Matching) : Prop where
  ids : ∀ {a b}, M.ids a b → a = b
  cells : ∀ {c d}, M.cells c d → c = d

/-- The objects that match still match in `N`. -/
structure Keeps (M N : Matching) : Prop where
  ids : ∀ {a b}, M.ids a b → N.ids a b
  cells : ∀ {c d}, M.cells c d → N.cells c d

/-- The numbers from `n` up to `last` stand for themselves, and `last` stands for `last'`. -/
def Staying (n last last' : Nat) (a b : Nat) : Prop :=
  (n ≤ a ∧ a < last ∧ b = a) ∨ (a = last ∧ b = last')

/-- The numbers from `n` up to `last` stand for themselves, and the ones from there up to `last'`
for the next one each. -/
def Shifting (n last last' : Nat) (a b : Nat) : Prop :=
  (n ≤ a ∧ a < last ∧ b = a) ∨ (last ≤ a ∧ a < last' ∧ b = a + 1) ∨ (a = last' ∧ b = last)

/-- The `k` numbers from `n` and `n'` on stand for each other. -/
def Following (n n' k : Nat) (a b : Nat) : Prop := ∃ i < k, a = n + i ∧ b = n' + i

section Numbers

variable {n n' last last' k a b a' b' : Nat}

theorem Staying.iff (h : Staying n last last' a b) (h' : Staying n last last' a' b')
    (hle : last ≤ last') : a = a' ↔ b = b' := by
  unfold Staying at h h'
  omega

theorem Staying.bounds (h : Staying n last last' a b) (hn : n ≤ last) (hle : last ≤ last') :
    n ≤ a ∧ n ≤ b ∧ a < last + 1 ∧ b < last' + 1 := by
  unfold Staying at h
  omega

theorem Shifting.iff (h : Shifting n last last' a b) (h' : Shifting n last last' a' b')
    (hle : last ≤ last') : a = a' ↔ b = b' := by
  unfold Shifting at h h'
  omega

theorem Shifting.bounds (h : Shifting n last last' a b) (hn : n ≤ last) (hle : last ≤ last') :
    n ≤ a ∧ n ≤ b ∧ a < last' + 1 ∧ b < last' + 1 := by
  unfold Shifting at h
  omega

theorem Following.iff (h : Following n n' k a b) (h' : Following n n' k a' b') :
    a = a' ↔ b = b' := by
  obtain ⟨i, -, rfl, rfl⟩ := h
  obtain ⟨j, -, rfl, rfl⟩ := h'
  omega

end Numbers

variable {M N P : Matching}

theorem widens_adding (M : Matching) (R : Identity → Identity → Prop) : M.Widens (M.adding R) :=
  ⟨⟨.inl, id, id⟩, rfl⟩

theorem grows_withoutLines (M : Matching) : M.Grows M.withoutLines := ⟨id, id, fun _ => trivial⟩

theorem Keeps.trans (h : M.Keeps N) (k : N.Keeps P) : M.Keeps P :=
  ⟨fun hab => k.ids (h.ids hab), fun hcd => k.cells (h.cells hcd)⟩

end Matching

theorem forall₂_and_self {α β : Type} {R : α → β → Prop} {p : β → Prop} {as : List α}
    {bs : List β} (h : List.Forall₂ R as bs) (hp : ∀ b ∈ bs, p b) :
    List.Forall₂ (fun a b => R a b ∧ p b) as bs := by
  induction h with
  | nil => exact .nil
  | cons hab _ ih =>
    obtain ⟨hb, hrest⟩ := List.forall_mem_cons.mp hp
    exact .cons ⟨hab, hb⟩ (ih hrest)

/-! ## Machines -/

section Machines

variable {M N Q : Matching} {K : Identity → Prop} {v w : Value}

/-- Among the identities that match themselves in `Q` are those of a value that does. -/
theorem Value.Matches.restrict (hK : ∀ b, Q.ids b b → K b) (h : v.Matches N w)
    (hw : w.Matches Q w) : v.Matches (N.restrict K Q) w := by
  induction h with
  | number x => exact .number x
  | string text => exact .string text
  | boolean b => exact .boolean b
  | nil => exact .nil
  | function id name arity captureCount code lines size _ ih =>
    cases hw with
    | function id' _ _ _ _ _ _ constants' =>
      exact .function ⟨id, hK _ id'⟩ name arity captureCount code lines size
        fun i v w hv hw => ih i v w hv hw (constants' i w w hw hw)
  | closure id _ cells ih =>
    cases hw with
    | closure id' function' cells' =>
      exact .closure ⟨id, hK _ id'⟩ (ih function')
        (forall₂_and_self cells (List.forall₂_same.mp cells'))
  | upvalue cell =>
    cases hw with
    | upvalue cell' => exact .upvalue ⟨cell, cell'⟩
  | native id name arity =>
    cases hw with
    | native id' => exact .native ⟨id, hK _ id'⟩ name arity

theorem Store.Matches.restrict {s s' : Store} (hK : ∀ b, Q.ids b b → K b) (h : s.Matches N s')
    (hs : s'.Matches Q s') : s.Matches (N.restrict K Q) s' where
  oneToOne := ⟨fun hab hab' => h.oneToOne.ids hab.1 hab'.1,
    fun hcd hcd' => h.oneToOne.cells hcd.1 hcd'.1⟩
  ids hab := h.ids hab.1
  cells hcd := h.cells hcd.1
  contents hcd := (h.contents hcd.1).restrict hK (hs.contents hcd.2)

theorem Store.Matches.withoutLines {s s' : Store} (h : s.Matches N s') :
    s.Matches N.withoutLines s' where
  oneToOne := ⟨h.oneToOne.ids, h.oneToOne.cells⟩
  ids := h.ids
  cells := h.cells
  contents hcd := (h.contents hcd).mono N.grows_withoutLines

/-- No call is active, and no cell is open. -/
structure Machine.IsIdle (m : Machine World) : Prop where
  callers : m.callers = []
  openCells : m.openCells = #[]

/-- The machine with another identity to hand out next. -/
def Machine.withNextId (m : Machine World) (i : Identity) : Machine World :=
  { m with store := { m.store with nextId := i } }

variable {W W' : World → World → Prop} {m m' : Machine World}

theorem Machine.IsIdle.withNextId (h : m.IsIdle) (i : Identity) : (m.withNextId i).IsIdle :=
  ⟨h.callers, h.openCells⟩

/-- Values that match in one way are restricted to what matches itself in another way. -/
theorem Machine.Matches.restrict (hidle : m.IsIdle) (hidle' : m'.IsIdle)
    (hK : ∀ b, Q.ids b b → K b) (h : m.Matches N W m') (hm : m'.Matches Q W' m') :
    m.Matches (N.restrict K Q) W m' where
  callers := by
    rw [hidle.callers, hidle'.callers]
    exact .nil
  openCells := by
    rw [hidle.openCells, hidle'.openCells]
    exact .nil
  globals name := by
    have hleft := h.globals name
    have hright := hm.globals name
    generalize m.globals.get? name = x, m'.globals.get? name = y at hleft hright
    cases hleft with
    | none => exact .none
    | some hvw =>
      cases hright with
      | some hww => exact .some (hvw.restrict hK hww)
  store := h.store.restrict hK hm.store
  world := h.world

theorem Machine.Matches.withoutLines (hidle : m.IsIdle) (hidle' : m'.IsIdle)
    (h : m.Matches N W m') : m.Matches N.withoutLines W m' where
  callers := by
    rw [hidle.callers, hidle'.callers]
    exact .nil
  openCells := by
    rw [hidle.openCells, hidle'.openCells]
    exact .nil
  globals := h.globals.mono N.grows_withoutLines
  store := h.store.withoutLines
  world := h.world

/-- A machine that matches itself is the same in itself. -/
theorem Machine.Matches.exists_isIdentity (hidle : m.IsIdle) (h : m.Matches M W m) :
    ∃ N, N.IsIdentity ∧ N.lines = M.lines ∧ m.Matches N W m := by
  refine ⟨M.restrict (fun b => M.ids b b) M, ⟨fun hab => ?_, fun hcd => ?_⟩, rfl,
    h.restrict hidle hidle (fun _ hb => hb) h⟩
  · exact (h.store.oneToOne.ids hab.1 hab.2).mpr rfl
  · exact (h.store.oneToOne.cells hcd.1 hcd.2).mpr rfl

/-- Identities that were handed out, but that nothing has, may be matched. -/
theorem Store.Matches.adding {s s' : Store} (h : s.Matches M s') {R : Identity → Identity → Prop}
    (hR : ∀ {a b a' b'}, R a b → R a' b' → (a = a' ↔ b = b'))
    (hfresh : ∀ {a b}, R a b → (∀ x, ¬ M.ids a x) ∧ ∀ x, ¬ M.ids x b) {i i' : Identity}
    (hbound : ∀ {a b}, R a b → a < i ∧ b < i') (hi : s.nextId ≤ i) (hi' : s'.nextId ≤ i') :
    { s with nextId := i }.Matches (M.adding R) { s' with nextId := i' } where
  oneToOne := by
    refine ⟨?_, h.oneToOne.cells⟩
    rintro a b a' b' (hab | hab) (hab' | hab')
    · exact h.oneToOne.ids hab hab'
    · refine iff_of_false ?_ ?_
      · rintro rfl
        exact (hfresh hab').1 _ hab
      · rintro rfl
        exact (hfresh hab').2 _ hab
    · refine iff_of_false ?_ ?_
      · rintro rfl
        exact (hfresh hab).1 _ hab'
      · rintro rfl
        exact (hfresh hab).2 _ hab'
    · exact hR hab hab'
  ids := by
    rintro a b (hab | hab)
    · exact ⟨Nat.lt_of_lt_of_le (h.ids hab).1 hi, Nat.lt_of_lt_of_le (h.ids hab).2 hi'⟩
    · exact hbound hab
  cells := h.cells
  contents hcd := (h.contents hcd).mono (M.widens_adding R).toGrows

theorem Machine.Matches.adding (h : m.Matches M W m') {R : Identity → Identity → Prop}
    (hR : ∀ {a b a' b'}, R a b → R a' b' → (a = a' ↔ b = b'))
    (hfresh : ∀ {a b}, R a b → (∀ x, ¬ M.ids a x) ∧ ∀ x, ¬ M.ids x b) {i i' : Identity}
    (hbound : ∀ {a b}, R a b → a < i ∧ b < i') (hi : m.store.nextId ≤ i)
    (hi' : m'.store.nextId ≤ i') :
    (m.withNextId i).Matches (M.adding R) W (m'.withNextId i') :=
  h.withStore (M.widens_adding R) (h.store.adding hR hfresh hbound hi hi')
    (h.openCells.mono (M.widens_adding R).toGrows)

end Machines

end ScriptEngine
