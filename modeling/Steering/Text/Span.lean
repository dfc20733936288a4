import Steering.Text.Blank
import Steering.Text.Decimal

/-!
# `Steering.Text.Span` — spans of time in messages

A span is a whole number of nanoseconds. It is shown in the largest of seconds, milliseconds,
microseconds and nanoseconds that it fills at least once (the empty span in nanoseconds), as a whole
number and, after a point, the rest of the span without the zeros at its end.
-/

namespace Steering.Text

/-- A count of units, of `10 ^ places` parts each, shown with as many places as it needs. -/
def decimalOf (places parts : Nat) : String :=
  let whole := toString (parts / Nat.pow 10 places)
  let rest := parts % Nat.pow 10 places
  if rest = 0 then whole
  else
    let digits := (padded places rest).reverse.dropWhile (· = '0')
    whole ++ "." ++ String.ofList digits.reverse

/-- A span of nanoseconds in its unit. -/
def span (nanos : Nat) : String :=
  if 1000000000 ≤ nanos then decimalOf 9 nanos ++ "s"
  else if 1000000 ≤ nanos then decimalOf 6 nanos ++ "ms"
  else if 1000 ≤ nanos then decimalOf 3 nanos ++ "µs"
  else toString nanos ++ "ns"

/-- A span given in milliseconds. -/
def millis (n : Nat) : String := span (n * 1000000)

end Steering.Text
