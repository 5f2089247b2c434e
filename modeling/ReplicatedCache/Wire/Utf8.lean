/-! # Faults in UTF-8

Where and how bytes fail to be UTF-8: the index at which the first bad sequence
starts, and how many of its bytes are readable as the start of a sequence that
then goes wrong. A sequence that is cut off by the end is incomplete instead.
-/

namespace ReplicatedCache.Utf8

/-- The first bad sequence. -/
inductive Fault
  | invalid (start length : Nat)
  | incomplete (start : Nat)
deriving DecidableEq, Inhabited, Repr

def Fault.message : Fault → String
  | invalid start length =>
    "invalid utf-8 sequence of " ++ toString length ++ " bytes from index " ++ toString start
  | incomplete start => "incomplete utf-8 byte sequence from index " ++ toString start

/-- The range of an ordinary continuation byte. -/
def follower : UInt8 × UInt8 := (0x80, 0xBF)

/-- The ranges of the bytes that must follow a first byte, or nothing if no
sequence starts with it. The narrower ranges leave out overlong forms,
surrogates, and code points past the last one. -/
def followers (first : UInt8) : Option (List (UInt8 × UInt8)) :=
  if first < 0x80 then some []
  else if first < 0xC2 then none
  else if first < 0xE0 then some [follower]
  else if first = 0xE0 then some [(0xA0, 0xBF), follower]
  else if first = 0xED then some [(0x80, 0x9F), follower]
  else if first < 0xF0 then some [follower, follower]
  else if first = 0xF0 then some [(0x90, 0xBF), follower, follower]
  else if first < 0xF4 then some [follower, follower, follower]
  else if first = 0xF4 then some [(0x80, 0x8F), follower, follower]
  else none

/-- Looks for the first fault. Of the sequence that begins at `start`, `seen`
bytes have been read, and the ranges of the others are given. -/
def faultFrom (start seen : Nat) : List (UInt8 × UInt8) → List UInt8 → Option Fault
  | [], [] => none
  | _ :: _, [] => some (.incomplete start)
  | [], b :: rest =>
    match followers b with
    | none => some (.invalid start 1)
    | some [] => faultFrom (start + 1) 0 [] rest
    | some ranges => faultFrom start 1 ranges rest
  | (low, high) :: ranges, b :: rest =>
    if low ≤ b ∧ b ≤ high then
      if ranges.isEmpty then faultFrom (start + seen + 1) 0 [] rest
      else faultFrom start (seen + 1) ranges rest
    else some (.invalid start seen)

def fault? (bytes : ByteArray) : Option Fault := faultFrom 0 0 [] bytes.data.toList

/-- The fault of bytes that are known not to be UTF-8. -/
def fault (bytes : ByteArray) : Fault := (fault? bytes).getD (.incomplete bytes.size)

end ReplicatedCache.Utf8
