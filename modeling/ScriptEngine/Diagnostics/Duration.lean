import ScriptEngine.Text.Column
set_option autoImplicit false

/-!
# Diagnostics: durations

A duration is a whole number of nanoseconds.  It is written in the largest unit
of which it has at least one, with as many decimals as it takes to be exact.
-/

namespace ScriptEngine

/-- A span of time. -/
structure Duration where
  nanoseconds : Nat
  deriving DecidableEq, Repr, Inhabited

namespace Duration

/-- No time at all. -/
def zero : Duration := ⟨0⟩

/-- One duration after the other. -/
def add (d e : Duration) : Duration := ⟨d.nanoseconds + e.nanoseconds⟩

/-- The decimals of a fraction with `digits` places, without the zeros at its
end. -/
def decimals (digits fraction : Nat) : String :=
  let padded := (Text.decimalZeros digits fraction).toList
  String.ofList (padded.reverse.dropWhile (· == '0')).reverse

/-- The duration in a unit of `10 ^ digits` nanoseconds. -/
def inUnit (d : Duration) (digits : Nat) (symbol : String) : String :=
  let unit := Nat.pow 10 digits
  let fraction := d.nanoseconds % unit
  Text.decimal (d.nanoseconds / unit) ++
    (if fraction = 0 then "" else "." ++ decimals digits fraction) ++ symbol

/-- The duration in its unit. -/
def toText (d : Duration) : String :=
  if 1_000_000_000 ≤ d.nanoseconds then d.inUnit 9 "s"
  else if 1_000_000 ≤ d.nanoseconds then d.inUnit 6 "ms"
  else if 1_000 ≤ d.nanoseconds then d.inUnit 3 "µs"
  else d.inUnit 0 "ns"

end Duration

end ScriptEngine
