import ReplicatedCache.Hash.Bytes

/-! # The XXH3 hash

The 64-bit XXH3 hash of a byte string, with the default secret and any seed.
The algorithm has one formula per range of lengths: empty, 1 to 3, 4 to 8,
9 to 16, 17 to 128, 129 to 240, and longer inputs, which are consumed in
stripes of 64 bytes. All arithmetic is modulo 2 ^ 64.

Keys, ring positions, sketch slots and fingerprints are all built on `hash`;
nothing else in the library looks inside it.
-/

namespace ReplicatedCache.Hash.Xxh3

def prime32a : UInt64 := 0x9E3779B1
def prime32b : UInt64 := 0x85EBCA77
def prime32c : UInt64 := 0xC2B2AE3D
def prime64a : UInt64 := 0x9E3779B185EBCA87
def prime64b : UInt64 := 0xC2B2AE3D27D4EB4F
def prime64c : UInt64 := 0x165667B19E3779F9
def prime64d : UInt64 := 0x85EBCA77C2B2AE63
def prime64e : UInt64 := 0x27D4EB2F165667C5
def primeMixA : UInt64 := 0x165667919E3779F9
def primeMixB : UInt64 := 0x9FB21C651E98DF25

/-- The default secret: 192 bytes that every formula draws its constants from. -/
def secret : ByteArray := ⟨#[
  0xb8, 0xfe, 0x6c, 0x39, 0x23, 0xa4, 0x4b, 0xbe, 0x7c, 0x01, 0x81, 0x2c, 0xf7, 0x21, 0xad, 0x1c,
  0xde, 0xd4, 0x6d, 0xe9, 0x83, 0x90, 0x97, 0xdb, 0x72, 0x40, 0xa4, 0xa4, 0xb7, 0xb3, 0x67, 0x1f,
  0xcb, 0x79, 0xe6, 0x4e, 0xcc, 0xc0, 0xe5, 0x78, 0x82, 0x5a, 0xd0, 0x7d, 0xcc, 0xff, 0x72, 0x21,
  0xb8, 0x08, 0x46, 0x74, 0xf7, 0x43, 0x24, 0x8e, 0xe0, 0x35, 0x90, 0xe6, 0x81, 0x3a, 0x26, 0x4c,
  0x3c, 0x28, 0x52, 0xbb, 0x91, 0xc3, 0x00, 0xcb, 0x88, 0xd0, 0x65, 0x8b, 0x1b, 0x53, 0x2e, 0xa3,
  0x71, 0x64, 0x48, 0x97, 0xa2, 0x0d, 0xf9, 0x4e, 0x38, 0x19, 0xef, 0x46, 0xa9, 0xde, 0xac, 0xd8,
  0xa8, 0xfa, 0x76, 0x3f, 0xe3, 0x9c, 0x34, 0x3f, 0xf9, 0xdc, 0xbb, 0xc7, 0xc7, 0x0b, 0x4f, 0x1d,
  0x8a, 0x51, 0xe0, 0x4b, 0xcd, 0xb4, 0x59, 0x31, 0xc8, 0x9f, 0x7e, 0xc9, 0xd9, 0x78, 0x73, 0x64,
  0xea, 0xc5, 0xac, 0x83, 0x34, 0xd3, 0xeb, 0xc3, 0xc5, 0x81, 0xa0, 0xff, 0xfa, 0x13, 0x63, 0xeb,
  0x17, 0x0d, 0xdd, 0x51, 0xb7, 0xf0, 0xda, 0x49, 0xd3, 0x16, 0x55, 0x26, 0x29, 0xd4, 0x68, 0x9e,
  0x2b, 0x16, 0xbe, 0x58, 0x7d, 0x47, 0xa1, 0xfc, 0x8f, 0xf8, 0xb8, 0xd1, 0x7a, 0xd0, 0x31, 0xce,
  0x45, 0xcb, 0x3a, 0x8f, 0x95, 0x16, 0x04, 0x28, 0xaf, 0xd7, 0xfb, 0xca, 0xbb, 0x4b, 0x40, 0x7e]⟩

/-- A final mix for the shortest inputs. -/
def avalancheShort (h : UInt64) : UInt64 :=
  let h := (h ^^^ (h >>> 33)) * prime64b
  let h := (h ^^^ (h >>> 29)) * prime64c
  h ^^^ (h >>> 32)

/-- The final mix of every other formula. -/
def avalanche (h : UInt64) : UInt64 :=
  let h := (h ^^^ (h >>> 37)) * primeMixA
  h ^^^ (h >>> 32)

def hashEmpty (seed : UInt64) : UInt64 :=
  avalancheShort (seed ^^^ word64At secret 56 ^^^ word64At secret 64)

/-- Inputs of 1 to 3 bytes: first, middle and last byte and the length in one word. -/
def hashUpTo3 (input : ByteArray) (seed : UInt64) : UInt64 :=
  let n := input.size
  let combined := (byteAt input 0 <<< 16) ||| (byteAt input (n / 2) <<< 24) |||
    byteAt input (n - 1) ||| (n.toUInt64 <<< 8)
  let flip := (word32At secret 0 ^^^ word32At secret 4) + seed
  avalancheShort (combined ^^^ flip)

/-- Inputs of 4 to 8 bytes: the first and the last four bytes, which may overlap. -/
def hashUpTo8 (input : ByteArray) (seed : UInt64) : UInt64 :=
  let n := input.size
  let seed := seed ^^^ (swap32 seed <<< 32)
  let flip := (word64At secret 8 ^^^ word64At secret 16) - seed
  let keyed := (word32At input (n - 4) + (word32At input 0 <<< 32)) ^^^ flip
  let h := (keyed ^^^ rotateLeft keyed 49 ^^^ rotateLeft keyed 24) * primeMixB
  let h := (h ^^^ ((h >>> 35) + n.toUInt64)) * primeMixB
  h ^^^ (h >>> 28)

/-- Inputs of 9 to 16 bytes: the first and the last eight bytes, which may overlap. -/
def hashUpTo16 (input : ByteArray) (seed : UInt64) : UInt64 :=
  let n := input.size
  let lower := word64At input 0 ^^^ ((word64At secret 24 ^^^ word64At secret 32) + seed)
  let upper := word64At input (n - 8) ^^^ ((word64At secret 40 ^^^ word64At secret 48) - seed)
  avalanche (n.toUInt64 + swap64 lower + upper + foldedProduct lower upper)

/-- Sixteen bytes of input mixed with sixteen bytes of the secret. -/
def mix16 (input : ByteArray) (seed : UInt64) (offset key : Nat) : UInt64 :=
  foldedProduct (word64At input offset ^^^ (word64At secret key + seed))
    (word64At input (offset + 8) ^^^ (word64At secret (key + 8) - seed))

/-- Inputs of 17 to 128 bytes: pairs of blocks taken from both ends. -/
def hashUpTo128 (input : ByteArray) (seed : UInt64) : UInt64 :=
  let n := input.size
  let pairs := if n > 96 then 4 else if n > 64 then 3 else if n > 32 then 2 else 1
  let sum := (List.range pairs).foldl (fun acc i =>
    acc + mix16 input seed (16 * i) (32 * i) + mix16 input seed (n - 16 * (i + 1)) (32 * i + 16))
    (n.toUInt64 * prime64a)
  avalanche sum

/-- Inputs of 129 to 240 bytes: one round per block of sixteen bytes. -/
def hashUpTo240 (input : ByteArray) (seed : UInt64) : UInt64 :=
  let n := input.size
  let first := (List.range 8).foldl (fun acc i => acc + mix16 input seed (16 * i) (16 * i))
    (n.toUInt64 * prime64a)
  let rest := (List.range (n / 16 - 8)).foldl
    (fun acc i => acc + mix16 input seed (16 * (i + 8)) (16 * i + 3)) (avalanche first)
  avalanche (rest + mix16 input seed (n - 16) 119)

/-- The secret with the seed worked into each of its words, as long inputs use it. -/
def seededSecret (seed : UInt64) : ByteArray :=
  if seed = 0 then secret else
    (List.range 24).foldl (fun out i =>
      let w := word64At secret (8 * i)
      let w := if i % 2 = 0 then w + seed else w - seed
      (List.range 8).foldl (fun out j => out.push (w >>> (8 * j).toUInt64).toUInt8) out)
      (ByteArray.emptyWithCapacity 192)

/-- The eight running sums of a long input. -/
abbrev Lanes := Vector UInt64 8

def initialLanes : Lanes :=
  #v[prime32c, prime64a, prime64b, prime64c, prime64d, prime32b, prime64e, prime32a]

/-- One stripe of 64 bytes: each word feeds its own lane through a product and
its neighbour lane directly. -/
def accumulate (input key : ByteArray) (offset keyOffset : Nat) (lanes : Lanes) : Lanes :=
  Vector.ofFn fun i =>
    let own := word64At input (offset + 8 * i.val) ^^^ word64At key (keyOffset + 8 * i.val)
    let neighbour := i.val ^^^ 1
    lanes[i] + (own &&& (0xFFFFFFFF : UInt64)) * (own >>> 32) +
      word64At input (offset + 8 * neighbour)

/-- Between blocks each lane is scrambled with the end of the secret. -/
def scramble (key : ByteArray) (lanes : Lanes) : Lanes :=
  Vector.ofFn fun i =>
    let h := lanes[i]
    (h ^^^ (h >>> 47) ^^^ word64At key (128 + 8 * i.val)) * prime32a

/-- Inputs of more than 240 bytes: blocks of sixteen stripes, then the stripes
of the last block, then the last 64 bytes once more. -/
def hashLong (input : ByteArray) (seed : UInt64) : UInt64 :=
  let n := input.size
  let key := seededSecret seed
  let blocks := (n - 1) / 1024
  let lanes := (List.range blocks).foldl (fun lanes b =>
    scramble key ((List.range 16).foldl (fun lanes s =>
      accumulate input key (1024 * b + 64 * s) (8 * s) lanes) lanes)) initialLanes
  let stripes := (n - 1 - 1024 * blocks) / 64
  let lanes := (List.range stripes).foldl (fun lanes s =>
    accumulate input key (1024 * blocks + 64 * s) (8 * s) lanes) lanes
  -- the last stripe may overlap the one before it
  let lanes := accumulate input key (n - 64) 121 lanes
  let sum := (n.toUInt64 * prime64a)
    + foldedProduct (lanes[0] ^^^ word64At key 11) (lanes[1] ^^^ word64At key 19)
    + foldedProduct (lanes[2] ^^^ word64At key 27) (lanes[3] ^^^ word64At key 35)
    + foldedProduct (lanes[4] ^^^ word64At key 43) (lanes[5] ^^^ word64At key 51)
    + foldedProduct (lanes[6] ^^^ word64At key 59) (lanes[7] ^^^ word64At key 67)
  avalanche sum

def seeded (seed : UInt64) (input : ByteArray) : UInt64 :=
  let n := input.size
  if n = 0 then hashEmpty seed
  else if n ≤ 3 then hashUpTo3 input seed
  else if n ≤ 8 then hashUpTo8 input seed
  else if n ≤ 16 then hashUpTo16 input seed
  else if n ≤ 128 then hashUpTo128 input seed
  else if n ≤ 240 then hashUpTo240 input seed
  else hashLong input seed

end Xxh3

def bytes (input : ByteArray) : UInt64 :=
  Xxh3.seeded 0 input

/-- The hash of a text, taken over its UTF-8 bytes. -/
def text (s : String) : UInt64 :=
  bytes s.toUTF8

end ReplicatedCache.Hash
