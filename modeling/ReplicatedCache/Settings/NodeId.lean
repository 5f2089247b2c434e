/-! # Drawn ids

The id of a node that was not given one: 128 bits, of which six are fixed and
the others drawn at random, in the usual groups of hexadecimal digits.
-/

namespace ReplicatedCache.Settings

/-- The lowest `width` digits of a number in base sixteen. -/
def hexDigits (width n : Nat) : List Char :=
  (Nat.toDigits 16 (Nat.pow 16 width + n % Nat.pow 16 width)).drop 1

/-- The id made of two random words. The first digit of the third group is
always `4`, and the fourth group begins with `8`, `9`, `a` or `b`. -/
def drawnId (high low : UInt64) : String :=
  let high := high.toNat
  let low := low.toNat
  let groups := [hexDigits 8 (high >>> 32), hexDigits 4 (high >>> 16),
    hexDigits 4 (0x4000 + high % 0x1000), hexDigits 4 (0x8000 + (low >>> 48) % 0x4000),
    hexDigits 12 low]
  "-".intercalate (groups.map String.ofList)

end ReplicatedCache.Settings
