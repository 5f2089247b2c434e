import ReplicatedCache.Wire.Message
import ReplicatedCache.Wire.Utf8

/-! # The encoding of messages

A message is encoded as the number of its variant in 32 bits, followed by its
fields. Numbers are little endian; a text or a value is its length in 64 bits
followed by its bytes; a truth value is one byte, and so is the mark of an
optional field. Reading takes a message off the front of some bytes; what is
left over is ignored.
-/

namespace ReplicatedCache.Wire

inductive DecodeError
  /-- A part of fixed size is cut off. -/
  | truncated
  /-- A text or a value is longer than what is left. -/
  | overlong
  | unknownVariant (found count : Nat)
  | badBool (found : UInt8)
  | badOption (found : UInt8)
  | badText (fault : Utf8.Fault)
deriving DecidableEq, Inhabited, Repr

def DecodeError.message : DecodeError → String
  | truncated => "io error: unexpected end of file"
  | overlong => "io error: "
  | unknownVariant found count =>
    "invalid value: integer `" ++ toString found ++ "`, expected variant index 0 <= i < " ++
      toString count
  | badBool found => "invalid u8 while decoding bool, expected 0 or 1, found " ++ toString found
  | badOption found => "tag for enum is not valid, found " ++ toString found
  | badText fault => "string is not valid utf8: " ++ fault.message

/-- The lowest `width` base-256 digits of a number, lowest first. -/
def digits : (width : Nat) → Nat → List UInt8
  | 0, _ => []
  | width + 1, n => UInt8.ofNat n :: digits width (n / 256)

/-- The number with some base-256 digits, lowest first. -/
def ofDigits : List UInt8 → Nat
  | [] => 0
  | b :: rest => b.toNat + 256 * ofDigits rest

/-! ## Writing -/

def bytes (list : List UInt8) : ByteArray := ⟨list.toArray⟩

def writeVariant (n : Nat) : ByteArray := bytes (digits 4 n)

def writeWord (n : UInt64) : ByteArray := bytes (digits 8 n.toNat)

def writeBool (b : Bool) : ByteArray := bytes [if b then 1 else 0]

def writeOption {α : Type} (write : α → ByteArray) : Option α → ByteArray
  | none => bytes [0]
  | some a => bytes [1] ++ write a

def writeValue (value : Value) : ByteArray := bytes (digits 8 value.size) ++ value

def writeText (text : String) : ByteArray := writeValue text.toUTF8

/-! ## Reading -/

/-- Reads something off the front of some bytes. -/
abbrev Reader := StateT ByteArray (Except DecodeError)

namespace Reader

def fail {α : Type} (error : DecodeError) : Reader α := fun _ => .error error

def take (count : Nat) (short : DecodeError) : Reader ByteArray := fun input =>
  if count ≤ input.size then .ok (input.extract 0 count, input.extract count input.size)
  else .error short

/-- Reads a number of a width. -/
def number (width : Nat) : Reader Nat := do
  let digits ← take width .truncated
  pure (ofDigits digits.data.toList)

def word : Reader UInt64 := do
  pure (UInt64.ofNat (← number 8))

def byte : Reader UInt8 := do
  pure (UInt8.ofNat (← number 1))

def bool : Reader Bool := do
  let b ← byte
  if b = 0 then pure false else if b = 1 then pure true else fail (.badBool b)

def option {α : Type} (read : Reader α) : Reader (Option α) := do
  let b ← byte
  if b = 0 then pure none
  else if b = 1 then some <$> read
  else fail (.badOption b)

def value : Reader Value := do
  let size ← number 8
  take size .overlong

def text : Reader String := do
  let bytes ← value
  match String.fromUTF8? bytes with
  | some text => pure text
  | none => fail (.badText (Utf8.fault bytes))

/-- Reads the number of one of `count` variants and goes on as the variant says. -/
def variant {α : Type} (count : Nat) (read : Nat → Option (Reader α)) : Reader α := do
  let n ← number 4
  match read n with
  | some reader => reader
  | none => fail (.unknownVariant n count)

end Reader

end Wire

open Wire

/-! ## The messages -/

namespace Operation

def write : Operation → ByteArray
  | set key value ttl => writeVariant 0 ++ writeText key ++ writeValue value ++ writeWord ttl
  | get key => writeVariant 1 ++ writeText key
  | getWithToken key => writeVariant 2 ++ writeText key
  | delete key => writeVariant 3 ++ writeText key
  | compareAndSwap key value expected ttl =>
    writeVariant 4 ++ writeText key ++ writeValue value ++ writeWord expected ++ writeWord ttl
  | clear => writeVariant 5

def reader? : Nat → Option (Reader Operation)
  | 0 => some do pure (set (← Reader.text) (← Reader.value) (← Reader.word))
  | 1 => some do pure (get (← Reader.text))
  | 2 => some do pure (getWithToken (← Reader.text))
  | 3 => some do pure (delete (← Reader.text))
  | 4 => some do
    pure (compareAndSwap (← Reader.text) (← Reader.value) (← Reader.word) (← Reader.word))
  | 5 => some (pure clear)
  | _ => none

def read : Reader Operation := Reader.variant 6 reader?

end Operation

/-- Decodes a message from the front of some bytes. -/
def Wire.decode {α : Type} (read : Reader α) (input : ByteArray) : Except DecodeError α :=
  (read.run input).map (·.1)

namespace Request

def write : Request → ByteArray
  | plain operation => operation.write
  | ping => writeVariant 6
  | client operation => writeVariant 7 ++ operation.write

def reader? : Nat → Option (Reader Request)
  | 6 => some (pure ping)
  | 7 => some do pure (client (← Operation.read))
  | n => (Operation.reader? n).map (plain <$> ·)

def read : Reader Request := Reader.variant 8 reader?

def decode (input : ByteArray) : Except DecodeError Request := Wire.decode read input

end Request

namespace Reply

def write : Reply → ByteArray
  | stored ok => writeVariant 0 ++ writeBool ok
  | value found => writeVariant 1 ++ writeOption writeValue found
  | valueWithToken found =>
    writeVariant 2 ++ writeOption (fun (v, token) => writeValue v ++ writeWord token) found
  | deleted ok => writeVariant 3 ++ writeBool ok
  | swapped ok => writeVariant 4 ++ writeBool ok
  | cleared => writeVariant 5
  | pong => writeVariant 6

def reader? : Nat → Option (Reader Reply)
  | 0 => some do pure (stored (← Reader.bool))
  | 1 => some do pure (value (← Reader.option Reader.value))
  | 2 => some do
    pure (valueWithToken (← Reader.option do pure (← Reader.value, ← Reader.word)))
  | 3 => some do pure (deleted (← Reader.bool))
  | 4 => some do pure (swapped (← Reader.bool))
  | 5 => some (pure cleared)
  | 6 => some (pure pong)
  | _ => none

end Reply

namespace Response

def write : Response → ByteArray
  | reply r => r.write
  | error text => writeVariant 7 ++ writeText text

def reader? : Nat → Option (Reader Response)
  | 7 => some do pure (error (← Reader.text))
  | n => (Reply.reader? n).map (reply <$> ·)

def read : Reader Response := Reader.variant 8 reader?

def decode (input : ByteArray) : Except DecodeError Response := Wire.decode read input

end Response

end ReplicatedCache
