import ReplicatedCache.Proofs.Wire.Stream

/-! # Frames on a stream

A stream is complete frames, one behind another, and whatever comes behind them. Where
reading arrives frame by frame is therefore known beforehand, and so is what it finds
there: a complete frame, or the end, or something that is neither. One to three bytes
are neither, and are taken for the end all the same.
-/

namespace ReplicatedCache.Frame

open Wire

def frames (payloads : List ByteArray) : ByteArray :=
  payloads.foldr (fun payload behind => wrap payload ++ behind) .empty

/-- The payloads of the complete frames at the front of a stream, and the fault that
follows them, if it is not the end. -/
def payloads (stream : ByteArray) : Received ByteArray := receiveAll .ok stream

/-- A stream is closed, or starts with what is no frame, or with a frame behind which
another stream begins. -/
@[elab_as_elim]
theorem stream_induction {motive : ByteArray → Prop}
    (closed : ∀ stream, read stream = .closed → motive stream)
    (failed : ∀ stream error rest, read stream = .failed error rest → motive stream)
    (found : ∀ stream payload rest, read stream = .found payload rest → motive rest →
      motive stream)
    (stream : ByteArray) : motive stream := by
  cases h : read stream with
  | closed => exact closed stream h
  | failed error rest => exact failed stream error rest h
  | found payload rest =>
      have hshorter := size_rest_lt h
      exact found stream payload rest h (stream_induction closed failed found rest)
termination_by stream.size

theorem payloads_of_closed {stream : ByteArray} (h : read stream = .closed) :
    payloads stream = { unread := stream } := receiveAll_of_closed h

theorem payloads_of_failed {stream rest : ByteArray} {error : Error}
    (h : read stream = .failed error rest) :
    payloads stream = { fault := some error, unread := rest } := receiveAll_of_failed h

theorem payloads_of_found {stream payload rest : ByteArray}
    (h : read stream = .found payload rest) :
    payloads stream =
      { payloads rest with messages := payload :: (payloads rest).messages } := by
  refine receiveAll_of_found ?_
  rw [readMessage, h]

theorem read_frames_cons {item : ByteArray} (h : item.size ≤ limit) (items : List ByteArray)
    (tail : ByteArray) :
    read (frames (item :: items) ++ tail) = .found item (frames items ++ tail) := by
  rw [frames, List.foldr_cons, ByteArray.append_assoc]
  exact read_wrap h _

/-- Frames are taken off a stream in the order in which they stand there. -/
theorem payloads_frames {items : List ByteArray} (hfit : ∀ item ∈ items, item.size ≤ limit)
    (tail : ByteArray) :
    payloads (frames items ++ tail) =
      { payloads tail with messages := items ++ (payloads tail).messages } := by
  induction items with
  | nil => exact congrArg payloads ByteArray.empty_append
  | cons item items ih =>
      obtain ⟨hitem, hitems⟩ := List.forall_mem_cons.mp hfit
      rw [payloads_of_found (read_frames_cons hitem items tail), ih hitems]
      rfl

/-- What a header of four bytes announces has that header. -/
theorem header_announced {stream : ByteArray} (h : 4 ≤ stream.size) :
    header (announced stream) = stream.extract 0 4 := by
  have hlength : (stream.extract 0 4).data.toList.reverse.length = 4 := by
    rw [List.length_reverse, Array.length_toList]
    change (stream.extract 0 4).size = 4
    rw [ByteArray.size_extract]
    omega
  have hdigits := digits_ofDigits (stream.extract 0 4).data.toList.reverse
  rw [hlength] at hdigits
  rw [header, announced, hdigits, List.reverse_reverse]
  rfl

/-- A frame that is found is the front of the stream. -/
theorem eq_wrap_append {stream payload rest : ByteArray} (h : read stream = .found payload rest) :
    payload.size ≤ limit ∧ stream = wrap payload ++ rest := by
  unfold read at h
  split at h
  next => exact nomatch h
  next hlong =>
    have hheader := header_announced (Nat.not_lt.mp hlong)
    dsimp only at h
    split at h
    next => exact nomatch h
    next hfit =>
      split at h
      next => exact nomatch h
      next hwhole =>
        injection h with hpayload hrest
        have hsize : payload.size = announced stream := by
          rw [← hpayload, ByteArray.size_extract]
          omega
        have hsplit (bytes : ByteArray) {count : Nat} (hcount : count ≤ bytes.size) :
            bytes = bytes.extract 0 count ++ bytes.extract count bytes.size := by
          rw [← ByteArray.extract_eq_extract_append_extract count (Nat.zero_le _) hcount,
            ByteArray.extract_zero_size]
        refine ⟨by omega, ?_⟩
        calc stream
            = stream.extract 0 4 ++ stream.extract 4 stream.size := hsplit _ (Nat.not_lt.mp hlong)
          _ = header payload.size ++ (payload ++ rest) := by
              rw [hsize, hheader, ← hpayload, ← hrest, ← hsplit _ (Nat.not_lt.mp hwhole)]
          _ = wrap payload ++ rest := (ByteArray.append_assoc ..).symm

/-- A stream of complete frames, and what comes behind them: the end, or a frame that
is too long or cut off. -/
structure Splits (stream : ByteArray) (payloads : List ByteArray) (fault : Option Error)
    (tail : ByteArray) : Prop where
  stream_eq : stream = frames payloads ++ tail
  fits : ∀ payload ∈ payloads, payload.size ≤ limit
  ends : match fault with
    | none => read tail = .closed
    | some error => ∃ rest, read tail = .failed error rest

theorem exists_splits (stream : ByteArray) :
    ∃ tail, Splits stream (payloads stream).messages (payloads stream).fault tail := by
  induction stream using stream_induction with
  | closed stream h =>
      rw [payloads_of_closed h]
      exact ⟨stream, ByteArray.empty_append.symm, by simp, h⟩
  | failed stream error rest h =>
      rw [payloads_of_failed h]
      exact ⟨stream, ByteArray.empty_append.symm, by simp, rest, h⟩
  | found stream payload rest h ih =>
      obtain ⟨tail, hrest, hfits, hends⟩ := ih
      obtain ⟨hfit, hfront⟩ := eq_wrap_append h
      rw [payloads_of_found h]
      refine ⟨tail, ?_, List.forall_mem_cons.mpr ⟨hfit, hfits⟩, hends⟩
      rw [hfront, frames, List.foldr_cons, ByteArray.append_assoc]
      exact congrArg _ hrest

/-! ## The end of a stream -/

/-- The bytes start with a complete frame. -/
def Complete (bytes : ByteArray) : Prop :=
  ∃ payload rest, payload.size ≤ limit ∧ bytes = wrap payload ++ rest

theorem complete_iff {bytes : ByteArray} :
    Complete bytes ↔ ∃ payload rest, read bytes = .found payload rest := by
  constructor
  · rintro ⟨payload, rest, hfit, rfl⟩
    exact ⟨payload, rest, read_wrap hfit rest⟩
  · rintro ⟨payload, rest, h⟩
    exact ⟨payload, rest, eq_wrap_append h⟩

/-- What is left of a stream when frames have been read off it. -/
inductive Point : ByteArray → ByteArray → Prop
  | here (stream : ByteArray) : Point stream stream
  | behind {stream payload rest point : ByteArray} (hread : read stream = .found payload rest)
      (h : Point rest point) : Point stream point

/-- Reading frame by frame comes to whatever is behind complete frames. -/
theorem point_iff {stream point : ByteArray} :
    Point stream point ↔
      ∃ items : List ByteArray, (∀ item ∈ items, item.size ≤ limit) ∧
        stream = frames items ++ point := by
  constructor
  · intro h
    induction h with
    | here stream => exact ⟨[], by simp, ByteArray.empty_append.symm⟩
    | @behind _ payload _ _ hread _ ih =>
        obtain ⟨hfit, rfl⟩ := eq_wrap_append hread
        obtain ⟨items, hfits, rfl⟩ := ih
        exact ⟨payload :: items, List.forall_mem_cons.mpr ⟨hfit, hfits⟩,
          (ByteArray.append_assoc ..).symm⟩
  · rintro ⟨items, hfits, rfl⟩
    induction items with
    | nil => exact ByteArray.empty_append (b := point) ▸ .here point
    | cons item items ih =>
        obtain ⟨hfit, hrest⟩ := List.forall_mem_cons.mp hfits
        exact .behind (read_frames_cons hfit items point) (ih hrest)

theorem read_eq_closed_iff {bytes : ByteArray} : read bytes = .closed ↔ bytes.size < 4 := by
  rw [read]
  split
  next h => exact iff_of_true rfl h
  next h =>
    refine iff_of_false ?_ h
    dsimp only
    split
    next => simp
    next => split <;> simp

theorem read_eq_failed_iff {bytes : ByteArray} :
    (∃ error rest, read bytes = .failed error rest) ↔ 4 ≤ bytes.size ∧ ¬ Complete bytes := by
  rw [complete_iff, ← Nat.not_lt, ← read_eq_closed_iff]
  cases read bytes <;> simp

/-- What was read tells a clean end from everything else: no bytes are the end, and bytes
that do not start with a complete frame are a fault. -/
structure TellsEnd {α : Type} (reading : Reading α) (bytes : ByteArray) : Prop where
  closed_iff : reading = .closed ↔ bytes.size = 0
  failed : 0 < bytes.size → ¬ Complete bytes → ∃ error rest, reading = .failed error rest

/-- Whatever is closed and fails where payloads do takes too few bytes for a header for
the end, and nothing else that is not. -/
theorem tellsEnd_iff {α : Type} {reading : Reading α} {bytes : ByteArray}
    (hclosed : reading = .closed ↔ read bytes = .closed)
    (hfailed : ∀ error rest, read bytes = .failed error rest → reading = .failed error rest) :
    TellsEnd reading bytes ↔ ¬ (0 < bytes.size ∧ bytes.size < 4) := by
  rw [read_eq_closed_iff] at hclosed
  constructor
  · rintro ⟨htells, -⟩ ⟨hsome, hfew⟩
    exact Nat.ne_of_gt hsome (htells.mp (hclosed.mpr hfew))
  · intro h
    refine ⟨hclosed.trans (by omega), fun hsome hnone => ?_⟩
    obtain ⟨error, rest, hread⟩ := read_eq_failed_iff.mpr ⟨by omega, hnone⟩
    exact ⟨error, rest, hfailed error rest hread⟩

theorem readMessage_eq_closed_iff {α : Type} {decode : ByteArray → Except DecodeError α}
    {bytes : ByteArray} : readMessage decode bytes = .closed ↔ read bytes = .closed := by
  rw [readMessage]
  cases read bytes with
  | closed => exact iff_of_true rfl rfl
  | failed error rest => simp
  | found payload rest =>
      dsimp only
      split <;> simp

/-- Reading a stream frame by frame comes to what is behind complete frames. There the end
is told from everything else, by payloads and by messages alike, unless one to three bytes
are left: these are taken for the end. -/
theorem tells_end_unless_header_severed {α : Type} (decode : ByteArray → Except DecodeError α)
    (stream point : ByteArray) :
    (Point stream point ↔
        ∃ items : List ByteArray, (∀ item ∈ items, item.size ≤ limit) ∧
          stream = frames items ++ point) ∧
      (TellsEnd (read point) point ↔ ¬ (0 < point.size ∧ point.size < 4)) ∧
      (TellsEnd (readMessage decode point) point ↔ ¬ (0 < point.size ∧ point.size < 4)) := by
  refine ⟨point_iff, tellsEnd_iff Iff.rfl fun _ _ h => h, ?_⟩
  exact tellsEnd_iff readMessage_eq_closed_iff fun error rest h => by rw [readMessage, h]

/-- Half a header behind a complete frame is taken for the end. -/
theorem severed_header_is_taken_for_end :
    let point := bytes [0, 0]
    let stream := frames [bytes [5, 0]] ++ point
    Point stream point ∧ read point = .closed ∧ point.size ≠ 0 ∧
      ¬ TellsEnd (read point) point ∧
      ¬ TellsEnd (readMessage Request.decode point) point := by
  intro point stream
  have hclosed : read point = .closed := rfl
  have hmessage : readMessage Request.decode point = .closed :=
    readMessage_eq_closed_iff.mpr hclosed
  have hsome : point.size ≠ 0 := by decide
  refine ⟨point_iff.mpr ⟨[bytes [5, 0]], by decide, rfl⟩, hclosed, hsome, fun h => ?_, fun h => ?_⟩
  · exact hsome (h.closed_iff.mp hclosed)
  · exact hsome (h.closed_iff.mp hmessage)

end ReplicatedCache.Frame
