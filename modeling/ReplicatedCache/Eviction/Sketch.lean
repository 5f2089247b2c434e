import ReplicatedCache.Fifo
import ReplicatedCache.Hash.Xxh3

/-! # The frequency sketch

An estimate of how often each key was used lately. Every use raises four 8-bit
counters, chosen by four hashes of the key, and is remembered in a window of
fixed size; once the window is full, each new use retires the oldest one and
lowers its counters again. A key's estimate is the smallest of its four
counters, so that other keys can only inflate it.
-/

namespace ReplicatedCache

/-- Four-row counters with a sliding window of the uses they count. -/
structure Sketch where
  counters : Array UInt8
  window : Fifo (List Nat)
  windowSize : Nat

namespace Sketch

def seeds : List UInt64 :=
  [0x9E3779B97F4A7C15, 0xC2B2AE3D27D4EB4F, 0x165667B19E3779F9, 0xD6E8FEB86659FD93]

def minWindow : Nat := 256

def maxWindow : Nat := 65536

def windowFor (capacity : Nat) : Nat := min maxWindow (max minWindow (16 * capacity))

/-- The number of counters: four per remembered use, rounded up to a power of two. -/
def widthFor (window : Nat) : Nat := (4 * window).nextPowerOfTwo

def ofCapacity (capacity : Nat) : Sketch :=
  let windowSize := windowFor capacity
  ⟨Array.replicate (widthFor windowSize) 0, .empty, windowSize⟩

instance : Inhabited Sketch := ⟨ofCapacity 0⟩

/-- The four counters of a key among `width`. -/
def slotsIn (width : Nat) (key : String) : List Nat :=
  seeds.map fun seed => (Hash.Xxh3.seeded seed key.toUTF8).toNat % width

def slots (sketch : Sketch) (key : String) : List Nat := slotsIn sketch.counters.size key

/-- A counter one higher, unless it is at its limit. -/
def raised (counter : UInt8) : UInt8 := if counter = 255 then 255 else counter + 1

/-- A counter one lower, unless it is zero. -/
def lowered (counter : UInt8) : UInt8 := if counter = 0 then 0 else counter - 1

def raise (counters : Array UInt8) (slots : List Nat) : Array UInt8 :=
  slots.foldl (fun counters slot => counters.modify slot raised) counters

def lower (counters : Array UInt8) (slots : List Nat) : Array UInt8 :=
  slots.foldl (fun counters slot => counters.modify slot lowered) counters

/-- Counts one use of some slots and forgets the oldest use of a full window. -/
def sample (sketch : Sketch) (slots : List Nat) : Sketch :=
  match sketch with
  | ⟨counters, window, windowSize⟩ =>
    -- raised before the oldest use is retired, so that a counter at its limit loses one use
    let counters := raise counters slots
    if window.size = windowSize then
      match window.pop? with
      | some (oldest, rest) => ⟨lower counters oldest, rest.push slots, windowSize⟩
      | none => ⟨counters, window.push slots, windowSize⟩
    else
      ⟨counters, window.push slots, windowSize⟩

def increment (sketch : Sketch) (key : String) : Sketch :=
  let slots := sketch.slots key
  sketch.sample slots

/-- How often a key was used lately, at most 255. -/
def estimate (sketch : Sketch) (key : String) : UInt8 :=
  (sketch.slots key).foldl (fun least slot => min least (sketch.counters[slot]?.getD 0)) 255

end Sketch

end ReplicatedCache
