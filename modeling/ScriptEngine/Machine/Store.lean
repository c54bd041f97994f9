import ScriptEngine.Value
set_option autoImplicit false

/-!
# Machine: the store

Cells are the only values that change, and the store holds their contents.  It
also hands out identities, so that every closure that is made differs from all
others.

`read_write` and `read_alloc` say that a cell holds what was put into it last,
and `read_write_of_ne` and `read_alloc_of_lt` that other cells are left alone.
-/

namespace ScriptEngine

/-- The contents of all cells, and the next identity that is free. -/
structure Store where
  cells : Array Value := #[]
  nextId : Identity := 0

instance : Inhabited Store := ⟨{}⟩

namespace Store

/-- The content of a cell. -/
def read (s : Store) (c : Cell) : Value := s.cells[c.index]?.getD .nil

/-- Replaces the content of a cell. -/
def write (s : Store) (c : Cell) (v : Value) : Store :=
  { s with cells := s.cells.setIfInBounds c.index v }

/-- A new cell with a first content. -/
def alloc (s : Store) (v : Value) : Cell × Store :=
  (⟨s.cells.size⟩, { s with cells := s.cells.push v })

/-- An identity that was not handed out before. -/
def freshId (s : Store) : Identity × Store :=
  (s.nextId, { s with nextId := s.nextId + 1 })

theorem read_write {s : Store} {c : Cell} (v : Value)
    (h : c.index < s.cells.size) : (s.write c v).read c = v := by
  simp [read, write, h]

theorem read_write_of_ne {s : Store} {c d : Cell} (v : Value) (h : c ≠ d) :
    (s.write c v).read d = s.read d := by
  have hne : c.index ≠ d.index := by
    intro he
    exact h (by cases c; cases d; simp_all)
  simp [read, write, Array.getElem?_setIfInBounds_ne hne]

theorem read_alloc (s : Store) (v : Value) :
    (s.alloc v).2.read (s.alloc v).1 = v := by
  simp [read, alloc]

theorem read_alloc_of_lt {s : Store} {c : Cell} (v : Value)
    (h : c.index < s.cells.size) : (s.alloc v).2.read c = s.read c := by
  simp [read, alloc, Array.getElem?_push, Nat.ne_of_lt h]

end Store

end ScriptEngine
