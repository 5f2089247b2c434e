import ReplicatedCache.Wire.Codec

/-! # Frames

A frame is a payload behind its length in four bytes, highest first. Streams of
frames are read one frame at a time: a stream that ends before a whole length
has been read counts as closed between two frames, and one that ends inside a
payload is cut off. A frame that announces too long a payload is refused before
any of the payload is read.
-/

namespace ReplicatedCache.Frame

open Wire

/-- The longest payload. -/
def limit : Nat := 64 * 1024 * 1024

inductive Error
  | tooLong (size : Nat)
  | announcedTooLong (size : Nat)
  | cutOff
  | malformed (error : DecodeError)
deriving DecidableEq, Inhabited, Repr

def Error.message : Error → String
  | tooLong size =>
    "Frame of " ++ toString size ++ " bytes exceeds the " ++ toString limit ++ " byte limit"
  | announcedTooLong size =>
    "Peer announced a " ++ toString size ++ " byte frame, limit is " ++ toString limit
  | cutOff => "Connection closed mid-frame: early eof"
  | malformed error => "Failed to decode frame: " ++ error.message

/-- The length of a payload as it stands in front of it. -/
def header (size : Nat) : ByteArray := bytes (digits 4 size).reverse

/-- A payload behind its length, however long it is. -/
def wrap (payload : ByteArray) : ByteArray := header payload.size ++ payload

def write (payload : ByteArray) : Except Error ByteArray :=
  if limit < payload.size then .error (.tooLong payload.size) else .ok (wrap payload)

/-- What is found at the front of a stream. -/
inductive Reading (α : Type)
  | closed
  | found (found : α) (rest : ByteArray)
  | failed (error : Error) (rest : ByteArray)

/-- The length of the payload that the first four bytes of a stream announce. -/
def announced (stream : ByteArray) : Nat := ofDigits (stream.extract 0 4).data.toList.reverse

def read (stream : ByteArray) : Reading ByteArray :=
  if stream.size < 4 then .closed
  else
    let size := announced stream
    let rest := stream.extract 4 stream.size
    if limit < size then .failed (.announcedTooLong size) rest
    -- the part of the payload that did arrive has been consumed
    else if rest.size < size then .failed .cutOff .empty
    else .found (rest.extract 0 size) (rest.extract size rest.size)

def readMessage {α : Type} (decode : ByteArray → Except DecodeError α) (stream : ByteArray) :
    Reading α :=
  match read stream with
  | .closed => .closed
  | .failed error rest => .failed error rest
  | .found payload rest =>
    match decode payload with
    | .ok message => .found message rest
    | .error error => .failed (.malformed error) rest

/-- What is left after a payload is shorter than the stream. -/
theorem size_rest_lt {stream payload rest : ByteArray} (h : read stream = .found payload rest) :
    rest.size < stream.size := by
  unfold read at h
  split at h
  · cases h
  · dsimp only at h
    split at h
    · cases h
    · split at h
      · cases h
      · injection h with _ h
        subst h
        simp only [ByteArray.size_extract]
        omega

end ReplicatedCache.Frame
