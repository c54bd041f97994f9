import ScriptEngine.Bytecode.Listing
import ScriptEngine.Proofs.Encoding
set_option autoImplicit false

/-!
# Bytecode: what a listing covers

A listing goes through any code from front to end.  Each entry starts where the one before it
ends, and the last one ends with the code (`Chunk.adjoining_entriesFrom`): an instruction that is
decoded lies within the code, and a byte at which nothing can be decoded is within it anyway.

Where the whole code can be decoded, the listing and the decoder take the same steps
(`Chunk.entriesFrom_eq`).  Together this is `listing_covers`.
-/

namespace ScriptEngine

namespace Chunk

/-! ## Entries -/

/-- What stands in front of each entry: the offset and the line. -/
def marginText (c : Chunk Value) (offset : Nat) : String :=
  Text.decimalZeros 4 offset ++ " " ++ c.lineColumn offset ++ " "

/-- The entry of a decoded instruction, which covers all of it. -/
def entryOf (c : Chunk Value) (i : Instruction) : ListingEntry :=
  ⟨c.marginText i.offset ++ c.instructionText i, i.size, i.size_pos⟩

/-- The entry of a byte at which nothing can be decoded, and of no other byte. -/
def refusalAt (c : Chunk Value) (offset : Nat) (e : DecodeError) : ListingEntry :=
  ⟨c.marginText offset ++ e.message, 1, Nat.one_pos⟩

/-- The entry is what there is to say about the bytes at an offset. -/
inductive Shows (c : Chunk Value) (offset : Nat) : ListingEntry → Prop where
  | instruction {i : Instruction} (decoded : c.decode offset = .ok i)
      (place : i.offset = offset) : Shows c offset (c.entryOf i)
  | refusal {e : DecodeError} (refused : c.decode offset = .error e) :
      Shows c offset (c.refusalAt offset e)

/-- Each entry starts where the one before it ends, the first one at `start`, and the last one
ends at `stop`. -/
def Adjoining : Nat → Nat → List (Nat × ListingEntry) → Prop
  | start, stop, [] => start = stop
  | start, stop, e :: later => e.1 = start ∧ Adjoining (start + e.2.size) stop later

/-- The entries go through all of the code, in no more steps than it has bytes. -/
structure Covers (c : Chunk Value) (entries : List (Nat × ListingEntry)) : Prop where
  adjoining : Adjoining 0 c.code.size entries
  total : (entries.map fun e => e.2.size).sum = c.code.size
  steps : entries.length ≤ c.code.size
  shown : ∀ e ∈ entries, e.1 < c.code.size ∧ c.Shows e.1 e.2

section Entries

variable {c : Chunk Value} {o start stop : Nat} {i : Instruction} {is : List Instruction}
  {entries : List (Nat × ListingEntry)}

theorem Adjoining.add_sum (h : Adjoining start stop entries) :
    start + (entries.map fun e => e.2.size).sum = stop := by
  induction entries generalizing start with
  | nil => exact h
  | cons e later ih =>
    rw [List.map_cons, List.sum_cons, ← Nat.add_assoc]
    exact ih h.2

/-- No entry is empty, so there are no more of them than bytes. -/
theorem Adjoining.add_length_le (h : Adjoining start stop entries) :
    start + entries.length ≤ stop := by
  induction entries generalizing start with
  | nil => exact Nat.le_of_eq h
  | cons e later ih =>
    have hlater := ih h.2
    have hpos := e.2.size_pos
    rw [List.length_cons]
    omega

/-! ## Decoding within the code -/

theorem add_size_le_of_decode (h : c.decode o = .ok i) : o + i.size ≤ c.code.size := by
  have hoperands := operands_of_decode h
  unfold operands? at hoperands
  split at hoperands
  · next hlt => exact hlt
  · cases hoperands

theorem entryAt_of_ok (h : c.decode o = .ok i) : c.entryAt o = c.entryOf i := by
  have hplace := offset_of_decode h
  subst hplace
  unfold entryAt
  rw [h]
  rfl

theorem entryAt_of_error {e : DecodeError} (h : c.decode o = .error e) :
    c.entryAt o = c.refusalAt o e := by
  unfold entryAt
  rw [h]
  rfl

theorem shows_entryAt (c : Chunk Value) (o : Nat) : c.Shows o (c.entryAt o) := by
  cases h : c.decode o with
  | ok i =>
    rw [entryAt_of_ok h]
    exact .instruction h (offset_of_decode h)
  | error e =>
    rw [entryAt_of_error h]
    exact .refusal h

/-- An entry that begins within the code ends within it. -/
theorem Shows.add_size_le {entry : ListingEntry} (h : c.Shows o entry) (ho : o < c.code.size) :
    o + entry.size ≤ c.code.size := by
  cases h with
  | instruction decoded => exact add_size_le_of_decode decoded
  | refusal => exact ho

/-! ## Going through the code -/

theorem entriesFrom_of_lt (ho : o < c.code.size) :
    c.entriesFrom o = (o, c.entryAt o) :: c.entriesFrom (o + (c.entryAt o).size) := by
  rw [entriesFrom, dif_pos ho]

theorem entriesFrom_of_le (ho : c.code.size ≤ o) : c.entriesFrom o = [] := by
  rw [entriesFrom, dif_neg (Nat.not_lt.mpr ho)]

/-- From within the code or its end, the entries lead up to its end. -/
theorem adjoining_entriesFrom {o : Nat} (ho : o ≤ c.code.size) :
    Adjoining o c.code.size (c.entriesFrom o) := by
  rcases Nat.lt_or_eq_of_le ho with hlt | rfl
  · have hwithin := (c.shows_entryAt o).add_size_le hlt
    have hpos := (c.entryAt o).size_pos
    rw [entriesFrom_of_lt hlt]
    exact ⟨rfl, adjoining_entriesFrom hwithin⟩
  · rw [entriesFrom_of_le (Nat.le_refl _)]
    exact rfl
termination_by c.code.size - o

theorem shows_of_mem_entriesFrom {o : Nat} {e : Nat × ListingEntry} (h : e ∈ c.entriesFrom o) :
    e.1 < c.code.size ∧ c.Shows e.1 e.2 := by
  by_cases hlt : o < c.code.size
  · have hpos := (c.entryAt o).size_pos
    rw [entriesFrom_of_lt hlt] at h
    rcases List.mem_cons.mp h with rfl | hlater
    · exact ⟨hlt, c.shows_entryAt o⟩
    · exact shows_of_mem_entriesFrom hlater
  · rw [entriesFrom_of_le (Nat.not_lt.mp hlt)] at h
    exact absurd h List.not_mem_nil
termination_by c.code.size - o

theorem covers_entriesFrom (c : Chunk Value) : c.Covers (c.entriesFrom 0) := by
  have hadjoining : Adjoining 0 c.code.size (c.entriesFrom 0) :=
    adjoining_entriesFrom (Nat.zero_le _)
  have hsum := hadjoining.add_sum
  have hlength := hadjoining.add_length_le
  rw [Nat.zero_add] at hsum hlength
  exact ⟨hadjoining, hsum, hlength, fun e he => shows_of_mem_entriesFrom he⟩

/-- Where all code from an offset on is decoded, the entries are those of its instructions. -/
theorem entriesFrom_eq {o : Nat} {is : List Instruction} (h : c.instructionsFrom o = .ok is) :
    c.entriesFrom o = is.map fun i => (i.offset, c.entryOf i) := by
  by_cases ho : o < c.code.size
  · obtain ⟨i, later, hi, hlater, rfl⟩ := instructionsFrom_eq_ok h ho
    have hpos := i.size_pos
    have hsize : (c.entryOf i).size = i.size := rfl
    rw [entriesFrom_of_lt ho, entryAt_of_ok hi, hsize, entriesFrom_eq hlater, List.map_cons,
      offset_of_decode hi]
  · rw [instructionsFrom_of_le (Nat.not_lt.mp ho)] at h
    cases h
    rw [entriesFrom_of_le (Nat.not_lt.mp ho)]
    rfl
termination_by c.code.size - o

end Entries

end Chunk

/-! ## Listings -/

/-- Whatever its bytes, its constants and its line table are, a listing of a chunk is a headline
and then entries that go through all of the code without a gap or an overrun, each of them for a
whole instruction or for one byte at which nothing can be decoded.  If the chunk can be decoded,
the entries are those of its instructions, at their offsets and in their order. -/
theorem listing_covers (c : Chunk Value) :
    ∃ entries : List (Nat × ListingEntry), c.Covers entries ∧
      (∀ name, c.listing name =
        "=== " ++ name ++ " ===\n" ++ String.join (entries.map fun e => e.2.text ++ "\n")) ∧
      ∀ is, c.instructions = .ok is → entries = is.map fun i => (i.offset, c.entryOf i) :=
  ⟨c.entriesFrom 0, c.covers_entriesFrom, fun _ => rfl, fun _ his => Chunk.entriesFrom_eq his⟩

/-- A closure is made that captures one variable, and is returned. -/
def closingCode : Chunk Value :=
  ⟨#[26, 0, 1, 1, 27], #[1, 1, 1, 1, 2],
    #[.function ⟨0, some "f", 0, 1, ⟨#[10, 0, 27], #[1, 1, 1], #[]⟩⟩]⟩

/-- Two instructions have two entries. -/
theorem listing_covers_closingCode :
    (∃ entries, closingCode.Covers entries ∧ entries.map Prod.fst = [0, 4]) ∧
    closingCode.listing "closing" =
      "=== closing ===\n0000    1 CLOSURE             0 <fn f> (local 1)\n0004    2 RETURN\n" := by
  have hdecoded : closingCode.instructions =
      .ok [⟨0, 1, .closure, [0, 1, 1]⟩, ⟨4, 2, .return, []⟩] := by
    cbv
  obtain ⟨entries, hcovers, hlisting, hentries⟩ := listing_covers closingCode
  have heq := hentries _ hdecoded
  refine ⟨⟨entries, hcovers, by rw [heq]; rfl⟩, ?_⟩
  rw [hlisting, heq]
  cbv

/-- An instruction, a byte that is no opcode, and one that breaks off, with lines for the first
two of the three bytes. -/
def brokenCode : Chunk Value := ⟨#[1, 255, 22], #[1, 1], #[]⟩

/-- Two bytes have an entry each with the reason why nothing can be decoded there. -/
example : brokenCode.listing "broken" =
    "=== broken ===\n0000    1 NIL\n0001    | Unknown opcode 0xff at offset 1.\n" ++
      "0002    0 Truncated instruction at offset 2.\n" := by
  decide +kernel

end ScriptEngine
