import ReplicatedCache.Time

/-! # Stored entries

What the cache holds under a key: the value, the deadline after which it no
longer counts, and the token of the write that stored it.
-/

namespace ReplicatedCache

/-- A value, opaque to the cache. -/
abbrev Value := ByteArray

/-- Two values are equal when their bytes are. -/
instance instDecidableEqValue : DecidableEq Value := fun a b =>
  if h : a.data = b.data then isTrue (ByteArray.ext h) else isFalse fun e => h (congrArg _ e)

/-- The mark of one storing write. No two writes of an engine share a token
until the 64-bit counter wraps; `0` is never minted. -/
abbrev Token := UInt64

/-- A value with its deadline and token. A deadline at or before the epoch
means that the entry never expires. -/
structure Entry where
  value : Value
  deadline : Instant
  token : Token
deriving DecidableEq, Inhabited

namespace Entry

def hasDeadline (entry : Entry) : Bool := decide (0 < entry.deadline)

/-- An entry is expired from its deadline on. -/
def expired (entry : Entry) (now : Instant) : Bool :=
  decide (0 < entry.deadline) && decide (entry.deadline ≤ now)

def live (entry : Entry) (now : Instant) : Bool := !entry.expired now

end Entry

end ReplicatedCache
