/-! # Socket addresses

An address of a host together with a port, in the usual notation:
`127.0.0.1:80`, `[fe80::1]:80`, or `[fe80::1%3]:80` with the number of a scope.
-/

namespace ReplicatedCache.Settings

/-- The four bytes of an IPv4 address. -/
structure IPv4 where
  a : UInt8
  b : UInt8
  c : UInt8
  d : UInt8
deriving DecidableEq, Inhabited, Repr

/-- The eight groups of an IPv6 address. -/
structure IPv6 where
  groups : List UInt16
  length_eq : groups.length = 8
deriving DecidableEq, Repr

instance : Inhabited IPv6 := ⟨⟨List.replicate 8 0, rfl⟩⟩

inductive SocketAddress
  | v4 (ip : IPv4) (port : UInt16)
  | v6 (ip : IPv6) (port : UInt16) (scope : UInt32)
deriving DecidableEq, Inhabited, Repr

/-! ## Writing -/

def IPv4.text (ip : IPv4) : String :=
  ".".intercalate [toString ip.a, toString ip.b, toString ip.c, toString ip.d]

namespace IPv6

def hex (group : UInt16) : String := String.ofList (Nat.toDigits 16 group.toNat)

def groupsText (groups : List UInt16) : String := ":".intercalate (groups.map hex)

/-- How many groups from the `i`-th one on are zero. -/
def zerosAt (groups : List UInt16) (i : Nat) : Nat :=
  ((groups.drop i).takeWhile (· = 0)).length

/-- The start and the length of the longest run of zeros, the first one if
there are several. -/
def longestZeros (groups : List UInt16) : Nat × Nat :=
  (List.range groups.length).foldl (fun (start, length) i =>
    if length < zerosAt groups i then (i, zerosAt groups i) else (start, length)) (0, 0)

/-- An IPv6 address as text. The longest run of two or more zeros is left out;
an address that embeds an IPv4 address shows it. -/
def text (ip : IPv6) : String :=
  match ip.groups with
  | [0, 0, 0, 0, 0, 0xFFFF, high, low] =>
    "::ffff:" ++ IPv4.text
      ⟨(high >>> 8).toUInt8, high.toUInt8, (low >>> 8).toUInt8, low.toUInt8⟩
  | groups =>
    let (start, length) := longestZeros groups
    if 1 < length then
      groupsText (groups.take start) ++ "::" ++ groupsText (groups.drop (start + length))
    else groupsText groups

end IPv6

def SocketAddress.text : SocketAddress → String
  | v4 ip port => ip.text ++ ":" ++ toString port
  | v6 ip port scope =>
    let zone := if scope = 0 then "" else "%" ++ toString scope
    "[" ++ ip.text ++ zone ++ "]:" ++ toString port

/-! ## Reading -/

/-- Reads something off the front of some characters, or fails without having
read anything. -/
abbrev Scan := StateT (List Char) Option

namespace Scan

def char (c : Char) : Scan Unit
  | d :: rest => if c = d then some ((), rest) else none
  | [] => none

/-- The value of a digit in a base of at most sixteen. -/
def digit? (base : Nat) (c : Char) : Option Nat :=
  let value :=
    if c.isDigit then c.toNat - '0'.toNat
    else if 'a' ≤ c ∧ c ≤ 'f' then c.toNat - 'a'.toNat + 10
    else if 'A' ≤ c ∧ c ≤ 'F' then c.toNat - 'A'.toNat + 10
    else 16
  if value < base then some value else none

/-- Reads all digits that follow as a number below a bound. -/
def number (base bound : Nat) (accept : List Nat → Bool) : Scan Nat := fun input =>
  let digits := (input.takeWhile fun c => (digit? base c).isSome).filterMap (digit? base)
  let value := digits.foldl (fun n d => base * n + d) 0
  if digits.isEmpty || !accept digits || decide (bound ≤ value) then none
  else some (value, input.drop digits.length)

/-- A byte in at most three digits, without leading zeros. -/
def octet : Scan UInt8 := do
  let n ← number 10 256 fun digits =>
    decide (digits.length ≤ 3) && (decide (digits.length = 1) || digits.head? != some 0)
  pure (UInt8.ofNat n)

/-- A group in at most four digits of base sixteen. -/
def group : Scan UInt16 := do
  let n ← number 16 65536 fun digits => decide (digits.length ≤ 4)
  pure (UInt16.ofNat n)

def ipv4 : Scan IPv4 := do
  let a ← octet
  char '.'
  let b ← octet
  char '.'
  let c ← octet
  char '.'
  let d ← octet
  pure ⟨a, b, c, d⟩

/-- What follows a colon, or stands at the beginning. -/
def part {α : Type} (first : Bool) (scan : Scan α) : Scan α := do
  if first then scan
  else do
    char ':'
    scan

/-- The two groups that an IPv4 address stands for. -/
def pair (ip : IPv4) : List UInt16 :=
  [ip.a.toUInt16 * 256 + ip.b.toUInt16, ip.c.toUInt16 * 256 + ip.d.toUInt16]

/-- As many groups as there are, but at most `limit`, and whether the last two
of them were written as an IPv4 address. -/
def groups (first : Bool) : (limit : Nat) → Scan (List UInt16 × Bool)
  | 0 => pure ([], false)
  | limit + 1 =>
    (do
      guard (0 < limit)
      pure (pair (← part first ipv4), true))
    <|> (do
      let g ← part first group
      let (others, embedded) ← groups false limit
      pure (g :: others, embedded))
    <|> pure ([], false)

def ipv6OfGroups (groups : List UInt16) : Scan IPv6 :=
  if h : groups.length = 8 then pure ⟨groups, h⟩ else failure

/-- Eight groups, of which a run of at least one zero may be left out. -/
def ipv6 : Scan IPv6 := do
  let (front, embedded) ← groups true 8
  if front.length = 8 then ipv6OfGroups front
  -- an embedded IPv4 address can only stand at the end
  else if embedded then failure
  else
    char ':'
    char ':'
    let (back, _) ← groups true (7 - front.length)
    ipv6OfGroups (front ++ List.replicate (8 - front.length - back.length) 0 ++ back)

def port : Scan UInt16 := do
  char ':'
  pure (UInt16.ofNat (← number 10 UInt16.size fun _ => true))

def scope : Scan UInt32 := do
  char '%'
  pure (UInt32.ofNat (← number 10 UInt32.size fun _ => true))

def socketV4 : Scan SocketAddress := do
  pure (.v4 (← ipv4) (← port))

def socketV6 : Scan SocketAddress := do
  char '['
  let ip ← ipv6
  let scope ← scope <|> pure 0
  char ']'
  pure (.v6 ip (← port) scope)

end Scan

/-- Reads a socket address, which must be all of the text. -/
def SocketAddress.parse? (text : String) : Option SocketAddress :=
  match (Scan.socketV4 <|> Scan.socketV6).run text.toList with
  | some (address, []) => some address
  | _ => none

end ReplicatedCache.Settings
