/-! # Spans, instants and the clock

A span is a length of time, an instant a point of time in whole milliseconds
since the epoch. A time to live is a span; `deadlineAfter` turns it into the
instant at which an entry stops being live, and `Span.toWire` into the number
of milliseconds that travels between nodes.
-/

namespace ReplicatedCache

/-- A length of time in nanoseconds. As a time to live, the empty span means
"no limit". -/
structure Span where
  nanos : Nat
deriving DecidableEq, Inhabited, Repr

namespace Span

def zero : Span := ⟨0⟩

def ofMillis (millis : Nat) : Span := ⟨millis * 1000000⟩

def ofSeconds (seconds : Nat) : Span := ⟨seconds * 1000000000⟩

/-- Whole milliseconds, rounded down. -/
def millis (span : Span) : Nat := span.nanos / 1000000

/-- Whole microseconds, rounded down. -/
def micros (span : Span) : Nat := span.nanos / 1000

instance : Add Span := ⟨fun a b => ⟨a.nanos + b.nanos⟩⟩

/-- The largest number of milliseconds that travels between nodes. -/
def maxWire : Nat := UInt64.size - 1

/-- A time to live in whole milliseconds, as it travels between nodes. A span
shorter than a millisecond counts as one, so that it does not become "no
limit"; a span too long for 64 bits counts as the longest one. -/
def toWire (ttl : Span) : UInt64 :=
  if ttl.nanos = 0 then 0 else UInt64.ofNat (max 1 (min ttl.millis maxWire))

def ofWire (millis : UInt64) : Span := ofMillis millis.toNat

/-- The digits of a fraction of `10 ^ width` parts, without trailing zeros. -/
def fractionDigits (width parts : Nat) : String :=
  let digits := (Nat.toDigits 10 (Nat.pow 10 width + parts)).drop 1
  String.ofList (digits.reverse.dropWhile (· = '0')).reverse

/-- A number with a decimal fraction of `10 ^ width` parts and a unit. -/
def decimal (whole width parts : Nat) (unit : String) : String :=
  let fraction := fractionDigits width parts
  if fraction.isEmpty then toString whole ++ unit else toString whole ++ "." ++ fraction ++ unit

/-- A span as text: in the largest unit of which it holds at least one, with as
many decimals as it needs. -/
def text (span : Span) : String :=
  if 1000000000 ≤ span.nanos then
    decimal (span.nanos / 1000000000) 9 (span.nanos % 1000000000) "s"
  else if 1000000 ≤ span.nanos then
    decimal (span.nanos / 1000000) 6 (span.nanos % 1000000) "ms"
  else if 1000 ≤ span.nanos then
    decimal (span.nanos / 1000) 3 (span.nanos % 1000) "µs"
  else
    toString span.nanos ++ "ns"

end Span

/-- A point of time: whole milliseconds since the epoch. -/
abbrev Instant := Int64

def lastInstant : Int := Int64.maxValue.toInt

/-- The instant at which something that may live for `ttl` from `now` on is
over. The empty span gives `0`, which stands for "never"; every other span is
rounded down to whole milliseconds but counts at least one, and a sum past the
last instant stops there. -/
def deadlineAfter (now : Instant) (ttl : Span) : Instant :=
  if ttl.nanos = 0 then 0
  else Int64.ofIntClamp (now.toInt + max 1 (min (ttl.millis : Int) lastInstant))

/-- A clock that shows the time passed since the epoch, in nanoseconds. -/
structure Clock where
  nanos : Int
deriving DecidableEq, Inhabited, Repr

namespace Clock

def ofMillis (millis : Int) : Clock := ⟨millis * 1000000⟩

def showing (seconds : Int) (nanos : Nat) : Clock := ⟨seconds * 1000000000 + nanos⟩

def advance (clock : Clock) (millis : Nat) : Clock := ⟨clock.nanos + millis * 1000000⟩

/-- The instant a clock shows: whole milliseconds, rounded down and cut to 64
bits. Before the epoch it shows the epoch itself. -/
def now (clock : Clock) : Instant :=
  if clock.nanos < 0 then 0 else Int64.ofInt (clock.nanos / 1000000)

end Clock

end ReplicatedCache
