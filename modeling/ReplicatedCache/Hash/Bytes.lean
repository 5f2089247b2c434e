/-! # Words inside byte strings

Little-endian words read at any offset of a byte string. A byte past the end
reads as zero, so every function here is total.
-/

namespace ReplicatedCache.Hash

/-- The byte at an offset, zero past the end. -/
@[inline] def byteAt (bytes : ByteArray) (offset : Nat) : UInt64 :=
  if h : offset < bytes.size then (bytes[offset]).toUInt64 else 0

/-- Four bytes from an offset, least significant first. -/
def word32At (bytes : ByteArray) (offset : Nat) : UInt64 :=
  byteAt bytes offset ||| (byteAt bytes (offset + 1) <<< 8) |||
    (byteAt bytes (offset + 2) <<< 16) ||| (byteAt bytes (offset + 3) <<< 24)

/-- Eight bytes from an offset, least significant first. -/
def word64At (bytes : ByteArray) (offset : Nat) : UInt64 :=
  word32At bytes offset ||| (word32At bytes (offset + 4) <<< 32)

/-- The low half of a word with its four bytes in the opposite order. -/
def swap32 (w : UInt64) : UInt64 :=
  let lowest : UInt64 := 0xFF
  let second : UInt64 := 0xFF00
  ((w &&& lowest) <<< 24) ||| ((w &&& second) <<< 8) |||
    ((w >>> 8) &&& second) ||| ((w >>> 24) &&& lowest)

/-- A word with its eight bytes in the opposite order. -/
def swap64 (w : UInt64) : UInt64 :=
  (swap32 w <<< 32) ||| swap32 (w >>> 32)

/-- A word turned left by `n` bits, for `n` strictly between 0 and 64. -/
def rotateLeft (w : UInt64) (n : UInt64) : UInt64 :=
  (w <<< n) ||| (w >>> (64 - n))

/-- The two halves of the 128-bit product of two words, combined by exclusive or. -/
def foldedProduct (x y : UInt64) : UInt64 :=
  let low : UInt64 := 0xFFFFFFFF
  let xl := x &&& low
  let xh := x >>> 32
  let yl := y &&& low
  let yh := y >>> 32
  let ll := xl * yl
  let hl := xh * yl
  let lh := xl * yh
  let hh := xh * yh
  let cross := (ll >>> 32) + (hl &&& low) + lh
  let upper := (hl >>> 32) + (cross >>> 32) + hh
  let lower := (cross <<< 32) ||| (ll &&& low)
  lower ^^^ upper

end ReplicatedCache.Hash
