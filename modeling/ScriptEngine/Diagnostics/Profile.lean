import ScriptEngine.Bytecode.Opcode
import ScriptEngine.Diagnostics.Duration
set_option autoImplicit false

/-!
# Diagnostics: the opcode profile

A profile counts, for each opcode, how often it was carried out and how long
that took in all.  An opcode that was never carried out has no entry.

`get_record_self` and `get_record_of_ne` say what one more execution does to the
entries, and `instructions_record` that it adds one to their total.
-/

namespace ScriptEngine

/-- How often something happened, and how long it took in all. -/
structure OpcodeStats where
  count : Nat := 0
  total : Duration := .zero
  deriving DecidableEq, Repr, Inhabited

namespace OpcodeStats

/-- The statistics with one more execution. -/
def record (s : OpcodeStats) (elapsed : Duration) : OpcodeStats :=
  ⟨s.count + 1, s.total.add elapsed⟩

/-- Longer in all, or as long and at least as often. -/
def weighsMore (s t : OpcodeStats) : Bool :=
  t.total.nanoseconds < s.total.nanoseconds ||
    (t.total.nanoseconds == s.total.nanoseconds && t.count ≤ s.count)

end OpcodeStats

/-- Statistics by opcode. -/
structure Profile where
  entries : List (Opcode × OpcodeStats) := []
  deriving DecidableEq, Repr

instance : Inhabited Profile := ⟨{}⟩

namespace Profile

/-- The statistics of an opcode in a list of entries. -/
def lookup (op : Opcode) : List (Opcode × OpcodeStats) → Option OpcodeStats
  | [] => none
  | (o, s) :: later => if o = op then some s else lookup op later

/-- The entries with one more execution of an opcode. -/
def recordIn (op : Opcode) (elapsed : Duration) :
    List (Opcode × OpcodeStats) → List (Opcode × OpcodeStats)
  | [] => [(op, OpcodeStats.record {} elapsed)]
  | (o, s) :: later =>
      if o = op then (o, s.record elapsed) :: later
      else (o, s) :: recordIn op elapsed later

/-- The statistics of an opcode. -/
def get? (p : Profile) (op : Opcode) : Option OpcodeStats := lookup op p.entries

/-- The profile with one more execution of an opcode. -/
def record (p : Profile) (op : Opcode) (elapsed : Duration) : Profile :=
  ⟨recordIn op elapsed p.entries⟩

/-- How many executions there were in all. -/
def instructions (p : Profile) : Nat := p.entries.foldr (fun e n => e.2.count + n) 0

/-- The entries, the one that took longest first. -/
def sorted (p : Profile) : List (Opcode × OpcodeStats) :=
  p.entries.mergeSort fun e f => e.2.weighsMore f.2

/-- A row of the table. -/
def row (name count total : String) : String :=
  Text.padRight 16 name ++ " " ++ Text.padLeft ' ' 10 count ++ " " ++
    Text.padLeft ' ' 14 total ++ "\n"

/-- The profile as a table. -/
def toText (p : Profile) : String :=
  row "opcode" "count" "total" ++
    String.join (p.sorted.map fun (op, s) =>
      row op.mnemonic (Text.decimal s.count) s.total.toText)

/-! ## Recording -/

theorem lookup_recordIn_self (op : Opcode) (elapsed : Duration)
    (entries : List (Opcode × OpcodeStats)) :
    lookup op (recordIn op elapsed entries) =
      some (((lookup op entries).getD {}).record elapsed) := by
  induction entries with
  | nil => simp [recordIn, lookup]
  | cons e later ih =>
    unfold recordIn
    split
    · next h => simp [lookup, h]
    · next h => simp [lookup, h, ih]

theorem lookup_recordIn_of_ne {op other : Opcode} (h : op ≠ other)
    (elapsed : Duration) (entries : List (Opcode × OpcodeStats)) :
    lookup other (recordIn op elapsed entries) = lookup other entries := by
  induction entries with
  | nil => simp [recordIn, lookup, h]
  | cons e later ih =>
    unfold recordIn
    split
    · next he => simp [lookup, he, h]
    · by_cases ho : e.1 = other
      · simp [lookup, ho]
      · simp [lookup, ho, ih]

theorem get_record_self (p : Profile) (op : Opcode) (elapsed : Duration) :
    (p.record op elapsed).get? op =
      some (((p.get? op).getD {}).record elapsed) :=
  lookup_recordIn_self op elapsed p.entries

theorem get_record_of_ne {op other : Opcode} (h : op ≠ other) (p : Profile)
    (elapsed : Duration) : (p.record op elapsed).get? other = p.get? other :=
  lookup_recordIn_of_ne h elapsed p.entries

theorem sum_counts_recordIn (op : Opcode) (elapsed : Duration)
    (entries : List (Opcode × OpcodeStats)) :
    (recordIn op elapsed entries).foldr (fun e n => e.2.count + n) 0 =
      entries.foldr (fun e n => e.2.count + n) 0 + 1 := by
  induction entries with
  | nil => simp [recordIn, OpcodeStats.record]
  | cons e later ih =>
    unfold recordIn
    split
    · simp only [List.foldr_cons, OpcodeStats.record]
      omega
    · simp only [List.foldr_cons, ih]
      omega

theorem instructions_record (p : Profile) (op : Opcode) (elapsed : Duration) :
    (p.record op elapsed).instructions = p.instructions + 1 :=
  sum_counts_recordIn op elapsed p.entries

end Profile

end ScriptEngine
