import ReplicatedCache.Wire.Frame
import ReplicatedCache.Proofs.Wire.Codec

/-! # Messages on a stream

A sender puts messages on a stream, each in a frame, until one does not fit into a
frame; a receiver takes messages off a stream until it is closed or a frame cannot be
read. What the sender puts on the stream the receiver takes off, whatever comes after
it: nothing, a frame that announces too much, or a frame that is cut off.
-/

namespace ReplicatedCache.Frame

open Wire

variable {α : Type}

/-- What a sender has put on a stream, and the fault that stopped it. -/
structure Sent where
  bytes : ByteArray := .empty
  fault : Option Error := none

/-- Puts messages on a stream until one of them does not fit into a frame. -/
def sendAll (encode : α → ByteArray) : List α → Sent
  | [] => {}
  | message :: rest =>
    match write (encode message) with
    | .error error => { fault := some error }
    | .ok frame => { sendAll encode rest with bytes := frame ++ (sendAll encode rest).bytes }

/-- What a receiver has taken off a stream, the fault that stopped it, and the bytes
that it has not read. -/
structure Received (α : Type) where
  messages : List α := []
  fault : Option Error := none
  unread : ByteArray := .empty

theorem size_rest_readMessage_lt {decode : ByteArray → Except DecodeError α} {message : α}
    {stream rest : ByteArray} (h : readMessage decode stream = .found message rest) :
    rest.size < stream.size := by
  unfold readMessage at h
  split at h
  next => exact nomatch h
  next => exact nomatch h
  next payload behind hread =>
    split at h
    next =>
      injection h with _ hrest
      exact hrest ▸ size_rest_lt hread
    next => exact nomatch h

/-- Takes messages off a stream until it is closed or a frame cannot be read. -/
def receiveAll (decode : ByteArray → Except DecodeError α) (stream : ByteArray) : Received α :=
  match h : readMessage decode stream with
  | .closed => { unread := stream }
  | .failed error rest => { fault := some error, unread := rest }
  | .found message rest =>
    have := size_rest_readMessage_lt h
    { receiveAll decode rest with messages := message :: (receiveAll decode rest).messages }
termination_by stream.size

/-! ## One frame -/

@[simp] theorem size_header (size : Nat) : (header size).size = 4 := by
  rw [header, size_bytes, List.length_reverse, length_digits]

@[simp] theorem size_wrap (payload : ByteArray) : (wrap payload).size = 4 + payload.size := by
  rw [wrap, ByteArray.size_append, size_header]

theorem announced_header {size : Nat} (h : size < UInt32.size) (behind : ByteArray) :
    announced (header size ++ behind) = size := by
  rw [announced, ByteArray.extract_append_eq_left (size_header size).symm, header, bytes,
    List.reverse_reverse]
  exact ofDigits_digits h

/-- What is found behind a header depends on the length that the header announces. -/
theorem read_header {size : Nat} (h : size < UInt32.size) (behind : ByteArray) :
    read (header size ++ behind) =
      if limit < size then .failed (.announcedTooLong size) behind
      else if behind.size < size then .failed .cutOff .empty
      else .found (behind.extract 0 size) (behind.extract size behind.size) := by
  have hlong : ¬ (header size ++ behind).size < 4 := by
    rw [ByteArray.size_append, size_header]
    omega
  have hbehind : (header size ++ behind).extract 4 (header size ++ behind).size = behind := by
    rw [ByteArray.size_append]
    exact ByteArray.extract_append_eq_right (size_header size).symm rfl
  rw [read, if_neg hlong]
  dsimp only
  rw [announced_header h, hbehind]

theorem lt_size_of_le_limit {size : Nat} (h : size ≤ limit) : size < UInt32.size :=
  Nat.lt_of_le_of_lt h (by decide)

theorem write_of_le {payload : ByteArray} (h : payload.size ≤ limit) :
    write payload = .ok (wrap payload) := if_neg (Nat.not_lt.mpr h)

theorem write_of_lt {payload : ByteArray} (h : limit < payload.size) :
    write payload = .error (.tooLong payload.size) := if_pos h

theorem read_wrap {payload : ByteArray} (h : payload.size ≤ limit) (rest : ByteArray) :
    read (wrap payload ++ rest) = .found payload rest := by
  have hcomplete : ¬ (payload ++ rest).size < payload.size := by
    rw [ByteArray.size_append]
    omega
  rw [wrap, ByteArray.append_assoc, read_header (lt_size_of_le_limit h),
    if_neg (Nat.not_lt.mpr h), if_neg hcomplete, ByteArray.extract_append_eq_left rfl,
    ByteArray.extract_append_eq_right rfl ByteArray.size_append]

/-! ## Whole streams -/

section Streams

variable {encode : α → ByteArray} {decode : ByteArray → Except DecodeError α}

theorem receiveAll_of_closed {stream : ByteArray} (h : read stream = .closed) :
    receiveAll decode stream = { unread := stream } := by
  have hmessage : readMessage decode stream = .closed := by rw [readMessage, h]
  rw [receiveAll]
  split
  next => rfl
  next heq => exact nomatch hmessage.symm.trans heq
  next heq => exact nomatch hmessage.symm.trans heq

theorem receiveAll_of_failed {stream rest : ByteArray} {error : Error}
    (h : read stream = .failed error rest) :
    receiveAll decode stream = { fault := some error, unread := rest } := by
  have hmessage : readMessage decode stream = .failed error rest := by rw [readMessage, h]
  rw [receiveAll]
  split
  next heq => exact nomatch hmessage.symm.trans heq
  next heq =>
    injection hmessage.symm.trans heq with herror hrest
    rw [herror, hrest]
  next heq => exact nomatch hmessage.symm.trans heq

theorem receiveAll_of_found {stream rest : ByteArray} {message : α}
    (h : readMessage decode stream = .found message rest) :
    receiveAll decode stream =
      { receiveAll decode rest with messages := message :: (receiveAll decode rest).messages } := by
  rw [receiveAll]
  split
  next heq => exact nomatch h.symm.trans heq
  next heq => exact nomatch h.symm.trans heq
  next heq =>
    injection h.symm.trans heq with hmessage hrest
    rw [hmessage, hrest]

/-- Messages are read back from their encodings as long as they fit into a frame. -/
def ReadsBack (encode : α → ByteArray) (decode : ByteArray → Except DecodeError α) : Prop :=
  ∀ message, (encode message).size ≤ limit → decode (encode message) = .ok message

/-- Messages that fit into frames are all sent, and are all received before anything
else that is on the stream. -/
theorem receiveAll_sendAll (hback : ReadsBack encode decode) {messages : List α}
    (hfit : ∀ message ∈ messages, (encode message).size ≤ limit) (behind : ByteArray) :
    (sendAll encode messages).fault = none ∧
      receiveAll decode ((sendAll encode messages).bytes ++ behind) =
        { receiveAll decode behind with
          messages := messages ++ (receiveAll decode behind).messages } := by
  induction messages with
  | nil => exact ⟨rfl, by rw [sendAll, ByteArray.empty_append]; rfl⟩
  | cons message rest ih =>
      obtain ⟨hmessage, hrest⟩ := List.forall_mem_cons.mp hfit
      obtain ⟨hfault, hreceived⟩ := ih hrest
      have hread : readMessage decode
          (wrap (encode message) ++ ((sendAll encode rest).bytes ++ behind)) =
          .found message ((sendAll encode rest).bytes ++ behind) := by
        rw [readMessage, read_wrap hmessage]
        dsimp only
        rw [hback message hmessage]
      rw [sendAll, write_of_le hmessage]
      dsimp only
      rw [ByteArray.append_assoc, receiveAll_of_found hread, hreceived]
      exact ⟨hfault, rfl⟩

/-- A message that does not fit into a frame stops the sender, and none of it is on the
stream. -/
theorem sendAll_append_of_lt {messages : List α}
    (hfit : ∀ message ∈ messages, (encode message).size ≤ limit) {message : α}
    (hlong : limit < (encode message).size) (more : List α) :
    sendAll encode (messages ++ message :: more) =
      { sendAll encode messages with fault := some (.tooLong (encode message).size) } := by
  induction messages with
  | nil =>
      have hstop : sendAll encode (message :: more) =
          { fault := some (.tooLong (encode message).size) } := by
        rw [sendAll, write_of_lt hlong]
      exact hstop
  | cons first rest ih =>
      obtain ⟨hfirst, hrest⟩ := List.forall_mem_cons.mp hfit
      rw [List.cons_append, sendAll, sendAll, write_of_le hfirst]
      dsimp only
      rw [ih hrest]

end Streams

/-- Messages that fit into frames pass through a stream: they are received in the order
in which they were sent, and then the end, or else what is wrong behind them. -/
structure PassesThrough (encode : α → ByteArray) (decode : ByteArray → Except DecodeError α)
    (messages : List α) : Prop where
  /-- All are sent and received, and nothing is left over. -/
  complete : (sendAll encode messages).fault = none ∧
    receiveAll decode (sendAll encode messages).bytes = { messages }
  /-- A message too long for a frame is refused, and the stream is as it was. -/
  overlong : ∀ message more, limit < (encode message).size →
    sendAll encode (messages ++ message :: more) =
      { sendAll encode messages with fault := some (.tooLong (encode message).size) }
  /-- A header that announces too much is refused, and whatever is behind it is unread. -/
  refused : ∀ size behind, limit < size → size < UInt32.size →
    receiveAll decode ((sendAll encode messages).bytes ++ (header size ++ behind)) =
      { messages, fault := some (.announcedTooLong size), unread := behind }
  /-- A frame that is cut off inside its payload is an error. -/
  severed : ∀ message arrived, (encode message).size ≤ limit → arrived < (encode message).size →
    receiveAll decode ((sendAll encode messages).bytes ++
        (wrap (encode message)).extract 0 (4 + arrived)) =
      { messages, fault := some .cutOff }

theorem passesThrough {encode : α → ByteArray} {decode : ByteArray → Except DecodeError α}
    (hback : ReadsBack encode decode) {messages : List α}
    (hfit : ∀ message ∈ messages, (encode message).size ≤ limit) :
    PassesThrough encode decode messages := by
  have hreceived := receiveAll_sendAll hback hfit
  constructor
  · obtain ⟨hfault, hall⟩ := hreceived .empty
    have hclosed : receiveAll decode .empty = {} := receiveAll_of_closed rfl
    rw [ByteArray.append_empty, hclosed, List.append_nil] at hall
    exact ⟨hfault, hall⟩
  · exact fun message more hlong => sendAll_append_of_lt hfit hlong more
  · intro size behind hlong hsize
    have hread := read_header hsize behind
    rw [if_pos hlong] at hread
    rw [(hreceived _).2, receiveAll_of_failed hread, List.append_nil]
  · intro message arrived hmessage hcut
    have hsevered : (wrap (encode message)).extract 0 (4 + arrived) =
        header (encode message).size ++ (encode message).extract 0 arrived := by
      rw [wrap,
        ByteArray.extract_eq_extract_append_extract 4 (Nat.zero_le _) (Nat.le_add_right 4 _),
        ByteArray.extract_append_eq_left (size_header _).symm]
      exact congrArg _ (ByteArray.extract_append_size_add' (i := 0) (size_header _).symm)
    have hread := read_header (lt_size_of_le_limit hmessage) ((encode message).extract 0 arrived)
    rw [if_neg (Nat.not_lt.mpr hmessage), if_pos (by rw [ByteArray.size_extract]; omega)] at hread
    rw [hsevered, (hreceived _).2, receiveAll_of_failed hread, List.append_nil]

theorem readsBack_request : ReadsBack Request.write Request.decode := fun _ h =>
  Request.decode_write (Nat.lt_of_le_of_lt h (by decide))

theorem readsBack_response : ReadsBack Response.write Response.decode := fun _ h =>
  Response.decode_write (Nat.lt_of_le_of_lt h (by decide))

/-- Requests and responses pass through a stream if each of them fits into a frame. -/
theorem messages_pass_through {requests : List Request} {responses : List Response}
    (hrequests : ∀ request ∈ requests, request.write.size ≤ limit)
    (hresponses : ∀ response ∈ responses, response.write.size ≤ limit) :
    PassesThrough Request.write Request.decode requests ∧
      PassesThrough Response.write Response.decode responses :=
  ⟨passesThrough readsBack_request hrequests, passesThrough readsBack_response hresponses⟩

/-- A conversation of three requests and their responses. -/
theorem messages_pass_through_swap :
    let requests : List Request :=
      [.plain (.getWithToken "key"), .client (.compareAndSwap "key" "new".toUTF8 7 1500), .ping]
    let responses : List Response :=
      [.reply (.valueWithToken (some ("old".toUTF8, 7))), .error "no", .reply .pong]
    (∀ request ∈ requests, request.write.size ≤ limit) ∧
      (∀ response ∈ responses, response.write.size ≤ limit) ∧
      PassesThrough Request.write Request.decode requests ∧
      PassesThrough Response.write Response.decode responses := by
  intro requests responses
  have hrequests : ∀ request ∈ requests, request.write.size ≤ limit := by decide
  have hresponses : ∀ response ∈ responses, response.write.size ≤ limit := by decide
  exact ⟨hrequests, hresponses, messages_pass_through hrequests hresponses⟩

end ReplicatedCache.Frame
