import Mathlib.Data.List.Forall2
import ScriptEngine.Machine.Store
set_option autoImplicit false

/-!
# Values that match

Two programs that do the same need not make the same objects: an identity that is handed
out depends on how many were handed out before, a cell on how many cells there are, and a
line on how the source is laid out.  A `Matching` says which identities, cells and lines
stand for each other, and `Value.Matches` that two values are the same but for these.

A program cannot tell values that match apart: they have the same type, the same text and
the same truth, and equality does not separate them either (`Matches.same_eq`), as long as
the identities that match are paired off.
-/

namespace ScriptEngine

/-! ## Lists of matching things -/

section Lists

variable {α β : Type} {R : α → β → Prop} {xs : List α} {ys : List β}

/-- Lists are related if they are at every place. -/
theorem forall₂_iff_getElem? :
    List.Forall₂ R xs ys ↔ ∀ i : Nat, Option.Rel R xs[i]? ys[i]? := by
  constructor
  · intro h
    induction h with
    | nil => exact fun _ => .none
    | cons hhead _ ih =>
      intro i
      cases i with
      | zero => exact .some hhead
      | succ i => exact ih i
  · intro h
    induction xs generalizing ys with
    | nil =>
      cases ys with
      | nil => exact .nil
      | cons y ys => cases h 0
    | cons x xs ih =>
      cases ys with
      | nil => cases h 0
      | cons y ys =>
        have hhead : R x y := by
          cases h 0
          assumption
        exact .cons hhead (ih fun i => h (i + 1))

theorem forall₂_set (h : List.Forall₂ R xs ys) {x : α} {y : β} (hxy : R x y) (i : Nat) :
    List.Forall₂ R (xs.set i x) (ys.set i y) := by
  induction h generalizing i with
  | nil => exact .nil
  | cons hhead htail ih =>
    cases i with
    | zero => exact .cons hxy htail
    | succ i => exact .cons hhead (ih i)

theorem forall₂_dropLast (h : List.Forall₂ R xs ys) :
    List.Forall₂ R xs.dropLast ys.dropLast := by
  rw [List.dropLast_eq_take, List.dropLast_eq_take, ← h.length_eq]
  exact List.forall₂_take _ h

theorem forall₂_eraseIdx (h : List.Forall₂ R xs ys) (i : Nat) :
    List.Forall₂ R (xs.eraseIdx i) (ys.eraseIdx i) := by
  rw [List.eraseIdx_eq_take_drop_succ, List.eraseIdx_eq_take_drop_succ]
  exact List.rel_append (List.forall₂_take _ h) (List.forall₂_drop _ h)

theorem forall₂_insertIdx (h : List.Forall₂ R xs ys) {x : α} {y : β} (hxy : R x y) (i : Nat) :
    List.Forall₂ R (xs.insertIdx i x) (ys.insertIdx i y) := by
  induction i generalizing xs ys with
  | zero => exact .cons hxy h
  | succ i ih =>
    cases h with
    | nil => exact .nil
    | cons hhead htail => exact .cons hhead (ih htail)

end Lists

theorem rel_imp {α β : Type} {R S : α → β → Prop} {x : Option α} {y : Option β}
    (h : Option.Rel R x y) (k : ∀ a b, R a b → S a b) : Option.Rel S x y := by
  cases h with
  | some hab => exact .some (k _ _ hab)
  | none => exact .none

section Arrays

variable {α β : Type} {R : α → β → Prop} {xs : Array α} {ys : Array β}

theorem size_eq_of_forall₂ (h : List.Forall₂ R xs.toList ys.toList) : xs.size = ys.size := by
  rw [← Array.length_toList, ← Array.length_toList]
  exact h.length_eq

theorem isEmpty_eq_of_forall₂ (h : List.Forall₂ R xs.toList ys.toList) :
    ys.isEmpty = xs.isEmpty := by
  rw [← Array.isEmpty_toList, ← Array.isEmpty_toList]
  generalize xs.toList = as, ys.toList = bs at h
  cases h <;> rfl

theorem getElem?_of_forall₂ (h : List.Forall₂ R xs.toList ys.toList) (i : Nat) :
    Option.Rel R xs[i]? ys[i]? := by
  rw [← Array.getElem?_toList, ← Array.getElem?_toList]
  exact forall₂_iff_getElem?.mp h i

theorem back?_of_forall₂ (h : List.Forall₂ R xs.toList ys.toList) :
    Option.Rel R xs.back? ys.back? := by
  rw [Array.back?_eq_getElem?, Array.back?_eq_getElem?, size_eq_of_forall₂ h]
  exact getElem?_of_forall₂ h _

theorem forall₂_push (h : List.Forall₂ R xs.toList ys.toList) {x : α} {y : β} (hxy : R x y) :
    List.Forall₂ R (xs.push x).toList (ys.push y).toList := by
  rw [Array.toList_push, Array.toList_push]
  exact List.rel_append h (.cons hxy .nil)

theorem forall₂_extract (h : List.Forall₂ R xs.toList ys.toList) (i j : Nat) :
    List.Forall₂ R (xs.extract i j).toList (ys.extract i j).toList := by
  rw [Array.toList_extract, Array.toList_extract]
  exact List.forall₂_take _ (List.forall₂_drop _ h)

end Arrays

/-! ## Matchings -/

/-- What stands for what on two sides. -/
structure Matching where
  ids : Identity → Identity → Prop
  cells : Cell → Cell → Prop
  lines : Nat → Nat → Prop

namespace Matching

/-- Nothing stands for anything but itself, except that lines do not matter. -/
def upToLines : Matching := ⟨Eq, Eq, fun _ _ => True⟩

/-- What matches still matches in `N`. -/
structure Grows (M N : Matching) : Prop where
  ids : ∀ {a b}, M.ids a b → N.ids a b
  cells : ∀ {c d}, M.cells c d → N.cells c d
  lines : ∀ {i j}, M.lines i j → N.lines i j

/-- Identities and cells are paired off. -/
structure IsOneToOne (M : Matching) : Prop where
  ids : ∀ {a b a' b'}, M.ids a b → M.ids a' b' → (a = a' ↔ b = b')
  cells : ∀ {c d c' d'}, M.cells c d → M.cells c' d' → (c = c' ↔ d = d')

theorem Grows.refl (M : Matching) : M.Grows M := ⟨id, id, id⟩

theorem Grows.trans {M N P : Matching} (h : M.Grows N) (k : N.Grows P) : M.Grows P :=
  ⟨fun hab => k.ids (h.ids hab), fun hcd => k.cells (h.cells hcd),
    fun hij => k.lines (h.lines hij)⟩

end Matching

/-! ## Values -/

/-- The values are the same but for what stands for each other. -/
inductive Value.Matches (M : Matching) : Value → Value → Prop where
  | number (x : Float) : Matches M (.number x) (.number x)
  | string (text : String) : Matches M (.string text) (.string text)
  | boolean (b : Bool) : Matches M (.boolean b) (.boolean b)
  | nil : Matches M .nil .nil
  | function {f g : Function Value} (id : M.ids f.id g.id) (name : f.name = g.name)
      (arity : f.arity = g.arity) (captureCount : f.captureCount = g.captureCount)
      (code : f.chunk.code = g.chunk.code)
      (lines : List.Forall₂ M.lines f.chunk.lines.toList g.chunk.lines.toList)
      (size : f.chunk.constants.size = g.chunk.constants.size)
      (constants : ∀ (i : Nat) (v w : Value), f.chunk.constants[i]? = some v →
        g.chunk.constants[i]? = some w → Matches M v w) : Matches M (.function f) (.function g)
  | closure {c d : Closure Value} (id : M.ids c.id d.id)
      (function : Matches M (.function c.function) (.function d.function))
      (cells : List.Forall₂ M.cells c.cells.toList d.cells.toList) :
      Matches M (.closure c) (.closure d)
  | upvalue {c d : Cell} (cell : M.cells c d) : Matches M (.upvalue c) (.upvalue d)
  | native {m n : Native} (id : M.ids m.id n.id) (name : m.name = n.name)
      (arity : m.arity = n.arity) : Matches M (.native m) (.native n)

/-- The functions are the same but for what stands for each other, and so are all the
functions in them. -/
def Function.Matches (M : Matching) (f g : Function Value) : Prop :=
  Value.Matches M (.function f) (.function g)

section Values

variable {M N : Matching} {v w v' w' : Value} {f g : Function Value}

theorem Value.Matches.mono (h : v.Matches M w) (hMN : M.Grows N) : v.Matches N w := by
  induction h with
  | number x => exact .number x
  | string text => exact .string text
  | boolean b => exact .boolean b
  | nil => exact .nil
  | function id name arity captureCount code lines size _ ih =>
    exact .function (hMN.ids id) name arity captureCount code (lines.imp fun _ _ => hMN.lines)
      size ih
  | closure id _ cells ih => exact .closure (hMN.ids id) ih (cells.imp fun _ _ => hMN.cells)
  | upvalue cell => exact .upvalue (hMN.cells cell)
  | native id name arity => exact .native (hMN.ids id) name arity

namespace Function.Matches

theorem name (h : f.Matches M g) : f.name = g.name := by
  cases h
  assumption

theorem arity (h : f.Matches M g) : f.arity = g.arity := by
  cases h
  assumption

theorem captureCount (h : f.Matches M g) : f.captureCount = g.captureCount := by
  cases h
  assumption

theorem code (h : f.Matches M g) : f.chunk.code = g.chunk.code := by
  cases h
  assumption

theorem lines (h : f.Matches M g) :
    List.Forall₂ M.lines f.chunk.lines.toList g.chunk.lines.toList := by
  cases h
  assumption

/-- The pools hold values that match at the same places. -/
theorem constants (h : f.Matches M g) (i : Nat) :
    Option.Rel (Value.Matches M) f.chunk.constants[i]? g.chunk.constants[i]? := by
  cases h with
  | function _ _ _ _ _ _ size constants =>
    by_cases hi : i < f.chunk.constants.size
    · have hi' : i < g.chunk.constants.size := size ▸ hi
      have hv := Array.getElem?_eq_getElem hi
      have hw := Array.getElem?_eq_getElem hi'
      rw [hv, hw]
      exact .some (constants i _ _ hv hw)
    · rw [Array.getElem?_eq_none (Nat.not_lt.mp hi),
        Array.getElem?_eq_none (size ▸ Nat.not_lt.mp hi)]
      exact .none

theorem toText_eq (h : f.Matches M g) : f.toText = g.toText := by
  unfold toText
  rw [h.name]

end Function.Matches

namespace Value.Matches

theorem truth_eq (h : v.Matches M w) : v.truth? = w.truth? := by
  cases h <;> rfl

theorem number_eq (h : v.Matches M w) : v.number? = w.number? := by
  cases h <;> rfl

theorem typeName_eq (h : v.Matches M w) : v.typeName = w.typeName := by
  cases h <;> rfl

theorem toText_eq (h : v.Matches M w) : v.toText = w.toText := by
  cases h with
  | function id name arity captureCount code lines size constants =>
    exact Function.Matches.toText_eq (M := M)
      (.function id name arity captureCount code lines size constants)
  | closure _ function _ => exact Function.Matches.toText_eq function
  | native _ name _ => exact congrArg (fun name => "<native " ++ name ++ ">") name
  | _ => rfl

/-- Values match as themselves only if everything in them stands for itself. -/
theorem eq (hids : ∀ {a b}, M.ids a b → a = b) (hcells : ∀ {c d}, M.cells c d → c = d)
    (hlines : ∀ {i j}, M.lines i j → i = j) (h : v.Matches M w) : v = w := by
  have harray : ∀ {α : Type} {R : α → α → Prop} {xs ys : Array α},
      (∀ {x y}, R x y → x = y) → List.Forall₂ R xs.toList ys.toList → xs = ys :=
    fun hR hxs => Array.toList_inj.mp (List.forall₂_eq_eq_eq ▸ hxs.imp fun _ _ => hR)
  induction h with
  | @function f g id name arity captureCount code lines size _ ih =>
    obtain ⟨i, n, a, c, code₁, lines₁, pool⟩ := f
    obtain ⟨i', n', a', c', code₂, lines₂, pool'⟩ := g
    obtain rfl := hids id
    obtain rfl : n = n' := name
    obtain rfl : a = a' := arity
    obtain rfl : c = c' := captureCount
    obtain rfl : code₁ = code₂ := code
    obtain rfl : lines₁ = lines₂ := harray hlines lines
    obtain rfl : pool = pool' := Array.ext size fun k hk hk' =>
      ih k _ _ (Array.getElem?_eq_getElem hk) (Array.getElem?_eq_getElem hk')
    rfl
  | @closure c d id _ cells ih =>
    obtain ⟨i, f, cs⟩ := c
    obtain ⟨i', f', cs'⟩ := d
    obtain rfl := hids id
    obtain rfl : f = f' := Value.function.inj ih
    obtain rfl : cs = cs' := harray hcells cells
    rfl
  | upvalue cell => rw [hcells cell]
  | @native m n id name arity =>
    obtain ⟨i, name₁, arity₁⟩ := m
    obtain ⟨i', name₂, arity₂⟩ := n
    obtain rfl := hids id
    obtain rfl : name₁ = name₂ := name
    obtain rfl : arity₁ = arity₂ := arity
    rfl
  | _ => rfl

/-- Equality does not tell values that match apart. -/
theorem same_eq (hM : M.IsOneToOne) (h : v.Matches M w) (h' : v'.Matches M w') :
    v.same v' = w.same w' := by
  cases h <;> cases h' <;> try rfl
  case function.function id _ _ _ _ _ _ _ _ _ id' _ _ _ _ _ _ _ =>
    exact Bool.eq_iff_iff.mpr (by simpa [same] using hM.ids id id')
  case closure.closure id _ _ _ _ id' _ _ =>
    exact Bool.eq_iff_iff.mpr (by simpa [same] using hM.ids id id')
  case upvalue.upvalue cell _ _ cell' =>
    exact Bool.eq_iff_iff.mpr (by simpa [same] using hM.cells cell cell')
  case native.native id _ _ _ _ id' _ _ =>
    exact Bool.eq_iff_iff.mpr (by simpa [same] using hM.ids id id')

end Value.Matches

end Values

end ScriptEngine
