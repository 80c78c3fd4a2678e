/-!
The text of a duration. It is given in the largest unit that makes its whole part positive, with
the fraction's digits up to the last one that is not zero: `1.5µs`, `999.999µs`, `1ms`, `2.25s`.
-/

namespace Trampoline.Duration

def microsecond : Nat := 1000

def millisecond : Nat := 1000 * microsecond

def second : Nat := 1000 * millisecond

/-- The decimal digits of `n`, with leading zeros up to `width` digits. -/
def padded (width n : Nat) : List Char :=
  let digits := Nat.toDigits 10 n
  List.replicate (width - digits.length) '0' ++ digits

/-- The digits without the zeros at their end. -/
def trimmed (digits : List Char) : List Char :=
  (digits.reverse.dropWhile (· == '0')).reverse

/-- A whole part, a fraction of `width` digits and a unit. -/
def decimal (whole fraction width : Nat) (suffix : String) : String :=
  let tail := trimmed (padded width fraction)
  toString whole ++ (if tail.isEmpty then "" else "." ++ String.ofList tail) ++ suffix

/-- The text of a duration given in nanoseconds. -/
def text (nanoseconds : Nat) : String :=
  if second ≤ nanoseconds then
    decimal (nanoseconds / second) (nanoseconds % second) 9 "s"
  else if millisecond ≤ nanoseconds then
    decimal (nanoseconds / millisecond) (nanoseconds % millisecond) 6 "ms"
  else if microsecond ≤ nanoseconds then
    decimal (nanoseconds / microsecond) (nanoseconds % microsecond) 3 "µs"
  else decimal nanoseconds 0 0 "ns"

end Trampoline.Duration
