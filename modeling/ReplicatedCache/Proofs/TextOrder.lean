import Mathlib.Data.String.Basic
import Mathlib.Tactic.SplitIfs

/-! # The order of text

Texts are compared by their characters. This is the order of their UTF-8 bytes: a
character of more bytes has the greater first byte, and of two characters with as many
bytes the greater one has the greater byte where they first differ. No bytes of a
character are the beginning of those of another one, so that nothing that follows
decides.
-/

namespace ReplicatedCache

end ReplicatedCache
