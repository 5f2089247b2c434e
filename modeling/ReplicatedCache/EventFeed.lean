import ReplicatedCache.Fifo
import ReplicatedCache.Notice

/-! # The event feed

A feed keeps the newest events only. Every reader has its own position; a
reader that falls behind so far that events it has not read are gone is told
how many it missed before it gets the ones that are left.
-/

namespace ReplicatedCache

/-- The newest events, the number of events ever published, and how many of
them each reader has seen or missed. -/
structure EventFeed where
  recent : Fifo KeyEvent := .empty
  published : Nat := 0
  readers : Array Nat := #[]

namespace EventFeed

instance : Inhabited EventFeed := ⟨{}⟩

def capacity : Nat := 1024

def publish (feed : EventFeed) (event : KeyEvent) : EventFeed :=
  match feed with
  | ⟨recent, published, readers⟩ =>
    let recent := recent.push event
    let recent := if recent.size ≤ capacity then recent else
      match recent.pop? with
      | some (_, rest) => rest
      | none => recent
    ⟨recent, published + 1, readers⟩

/-- Adds a reader of the events to come and tells its number. -/
def subscribe (feed : EventFeed) : EventFeed × Nat :=
  ({ feed with readers := feed.readers.push feed.published }, feed.readers.size)

/-- What a reader finds: the number of events it missed, and the others. -/
structure Reading where
  missed : Nat := 0
  events : List KeyEvent := []
deriving DecidableEq, Inhabited, Repr

def read (feed : EventFeed) (reader : Nat) : EventFeed × Reading :=
  match feed.readers[reader]? with
  | none => (feed, {})
  | some position =>
    -- the number of the oldest event that is still kept
    let first := feed.published - feed.recent.size
    ({ feed with readers := feed.readers.setIfInBounds reader feed.published },
      { missed := first - position, events := feed.recent.toList.drop (position - first) })

end EventFeed

end ReplicatedCache
