import ReplicatedCache.Wire.Codec

/-! # Reading what was written

A reader finds something in front of whatever follows if it takes its encoding off
the front and leaves the rest. Readers that are put together find what writers put
together in the same order. Every request and every response is found again as long
as its encoding is no longer than a length in 64 bits can tell.
-/

namespace ReplicatedCache

namespace Wire

/-! ## Numbers in digits -/

@[simp] theorem length_digits (width n : Nat) : (digits width n).length = width := by
  induction width generalizing n with
  | zero => rfl
  | succ width ih => rw [digits, List.length_cons, ih]

/-- The digits of a number that fits tell the number. -/
theorem ofDigits_digits {width n : Nat} (h : n < Nat.pow 256 width) :
    ofDigits (digits width n) = n := by
  induction width generalizing n with
  | zero =>
      have hzero : n < 1 := h
      rw [digits, ofDigits, Nat.lt_one_iff.mp hzero]
  | succ width ih =>
      have hhigher : n / 256 < Nat.pow 256 width := Nat.div_lt_of_lt_mul (Nat.mul_comm .. ▸ h)
      rw [digits, ofDigits, ih hhigher, UInt8.toNat_ofNat']
      exact Nat.mod_add_div n 256

/-- Digits are those of the number that they make. -/
theorem digits_ofDigits (list : List UInt8) : digits list.length (ofDigits list) = list := by
  induction list with
  | nil => rfl
  | cons b rest ih =>
      have hb := b.toNat_lt
      have hlow : UInt8.ofNat (b.toNat + 256 * ofDigits rest) = b := by
        rw [← UInt8.toNat_inj, UInt8.toNat_ofNat']
        omega
      have hhigh : (b.toNat + 256 * ofDigits rest) / 256 = ofDigits rest := by omega
      rw [ofDigits, List.length_cons, digits, hlow, hhigh, ih]

@[simp] theorem size_bytes (list : List UInt8) : (bytes list).size = list.length := rfl

theorem size_writeVariant (n : Nat) : (writeVariant n).size = 4 := rfl

theorem size_writeValue (value : Value) : (writeValue value).size = 8 + value.size := by
  rw [writeValue, ByteArray.size_append, size_bytes, length_digits]

theorem size_writeText (text : String) : (writeText text).size = 8 + text.toUTF8.size :=
  size_writeValue _

/-! ## Parts of messages -/

namespace Reader

variable {α β : Type} {a : α} {b : β} {encoded more : ByteArray}

/-- A reader takes an encoding off the front of whatever follows, and finds what was
encoded. -/
def Finds (read : Reader α) (encoded : ByteArray) (a : α) : Prop :=
  ∀ rest, read.run (encoded ++ rest) = .ok (a, rest)

theorem finds_pure (a : α) : (pure a : Reader α).Finds .empty a := fun rest => by
  rw [ByteArray.empty_append]
  rfl

theorem Finds.bind {read : Reader α} {next : α → Reader β} (hfirst : read.Finds encoded a)
    (hnext : (next a).Finds more b) : (read >>= next).Finds (encoded ++ more) b := fun rest => by
  rw [ByteArray.append_assoc, StateT.run_bind, hfirst]
  exact hnext rest

theorem Finds.map {read : Reader α} (h : read.Finds encoded a) (f : α → β) :
    (f <$> read).Finds encoded (f a) := fun rest => by
  rw [StateT.run_map, h]
  rfl

/-- What follows a part that is found may take nothing. -/
theorem Finds.bind_empty {read : Reader α} (hfirst : read.Finds encoded a) {next : α → Reader β}
    (hnext : (next a).Finds .empty b) : (read >>= next).Finds encoded b := by
  have hread := hfirst.bind hnext
  rwa [ByteArray.append_empty] at hread

theorem Finds.bind_pure {read : Reader α} (h : read.Finds encoded a) (f : α → β) :
    (read >>= fun a => pure (f a)).Finds encoded (f a) := h.bind_empty (finds_pure (f a))

theorem finds_take (encoded : ByteArray) (short : DecodeError) :
    (take encoded.size short).Finds encoded encoded := fun rest => by
  have hle : encoded.size ≤ (encoded ++ rest).size := by
    rw [ByteArray.size_append]
    exact Nat.le_add_right _ _
  change take encoded.size short (encoded ++ rest) = _
  rw [take, if_pos hle, ByteArray.extract_append_eq_left rfl,
    ByteArray.extract_append_eq_right rfl ByteArray.size_append]

theorem finds_number {width n : Nat} (h : n < Nat.pow 256 width) :
    (number width).Finds (bytes (digits width n)) n := by
  have htake := finds_take (bytes (digits width n)) .truncated
  rw [size_bytes, length_digits] at htake
  have hread := htake.bind_pure fun digits => ofDigits digits.data.toList
  rwa [bytes, ofDigits_digits h] at hread

theorem finds_word (n : UInt64) : word.Finds (writeWord n) n := by
  have hnumber : (number 8).Finds (writeWord n) n.toNat := finds_number n.toNat_lt
  have hread := hnumber.bind_pure UInt64.ofNat
  rwa [UInt64.ofNat_toNat] at hread

theorem finds_byte (b : UInt8) : byte.Finds (bytes [b]) b := by
  have hdigit : digits 1 b.toNat = [b] := by rw [digits, digits, UInt8.ofNat_toNat]
  have hnumber : (number 1).Finds (bytes (digits 1 b.toNat)) b.toNat := finds_number b.toNat_lt
  have hread := hnumber.bind_pure UInt8.ofNat
  rwa [UInt8.ofNat_toNat, hdigit] at hread

theorem finds_bool (b : Bool) : bool.Finds (writeBool b) b := by
  refine (finds_byte (if b then 1 else 0)).bind_empty ?_
  cases b with
  | false => exact finds_pure false
  | true => exact finds_pure true

theorem finds_option {read : Reader α} {write : α → ByteArray} {found : Option α}
    (h : ∀ a ∈ found, read.Finds (write a) a) :
    (option read).Finds (writeOption write found) found := by
  cases found with
  | none => exact (finds_byte 0).bind_empty (finds_pure none)
  | some a => exact (finds_byte 1).bind ((h a rfl).map some)

theorem finds_value {v : Value} (h : v.size < UInt64.size) : value.Finds (writeValue v) v := by
  have hnumber : (number 8).Finds (bytes (digits 8 v.size)) v.size := finds_number h
  exact hnumber.bind (finds_take v .overlong)

theorem finds_text {t : String} (h : t.toUTF8.size < UInt64.size) : text.Finds (writeText t) t := by
  have hutf8 : String.fromUTF8? t.toUTF8 = some t := dif_pos t.isValidUTF8
  refine (finds_value h).bind_empty ?_
  rw [hutf8]
  exact finds_pure t

/-- The encoding of something of which there are several variants: the number of its
variant, followed by what the reader of this variant finds. -/
def Encodes (readers : Nat → Option (Reader α)) (encoded : ByteArray) (a : α) : Prop :=
  ∃ n reader fields, n < Nat.pow 256 4 ∧ readers n = some reader ∧ reader.Finds fields a ∧
    encoded = writeVariant n ++ fields

theorem Encodes.finds {readers : Nat → Option (Reader α)} (h : Encodes readers encoded a)
    (count : Nat) : (variant count readers).Finds encoded a := by
  obtain ⟨n, reader, fields, hn, hreader, hfields, rfl⟩ := h
  refine (finds_number hn).bind ?_
  rw [hreader]
  exact hfields

/-- Variants stay what they are among the variants of something wider. -/
theorem Encodes.map {readers : Nat → Option (Reader α)} {wider : Nat → Option (Reader β)}
    (h : Encodes readers encoded a) (f : α → β)
    (hwider : ∀ n reader, readers n = some reader → wider n = some (f <$> reader)) :
    Encodes wider encoded (f a) := by
  obtain ⟨n, reader, fields, hn, hreader, hfields, hencoded⟩ := h
  exact ⟨n, f <$> reader, fields, hn, hwider n reader hreader, hfields.map f, hencoded⟩

theorem decode_of_finds {read : Reader α} (h : read.Finds encoded a) :
    decode read encoded = .ok a := by
  have hread := h .empty
  rw [ByteArray.append_empty] at hread
  rw [decode, hread]
  rfl

end Reader

end Wire

open Wire Reader

/-! ## Messages -/

theorem Operation.encodes_write {operation : Operation} (h : operation.write.size < UInt64.size) :
    Encodes reader? operation.write operation := by
  cases operation with
  | set key value ttl =>
      simp only [write, ByteArray.size_append, size_writeText, size_writeValue] at h
      have hkey := finds_text (t := key) (by omega)
      have hvalue := finds_value (v := value) (by omega)
      refine ⟨0, _, _, by decide, rfl, hkey.bind (hvalue.bind ((finds_word ttl).bind_pure _)), ?_⟩
      simp only [write, ByteArray.append_assoc]
  | get key =>
      simp only [write, ByteArray.size_append, size_writeText] at h
      exact ⟨1, _, _, by decide, rfl, (finds_text (by omega)).bind_pure _, rfl⟩
  | getWithToken key =>
      simp only [write, ByteArray.size_append, size_writeText] at h
      exact ⟨2, _, _, by decide, rfl, (finds_text (by omega)).bind_pure _, rfl⟩
  | delete key =>
      simp only [write, ByteArray.size_append, size_writeText] at h
      exact ⟨3, _, _, by decide, rfl, (finds_text (by omega)).bind_pure _, rfl⟩
  | compareAndSwap key value expected ttl =>
      simp only [write, ByteArray.size_append, size_writeText, size_writeValue] at h
      have hkey := finds_text (t := key) (by omega)
      have hvalue := finds_value (v := value) (by omega)
      refine ⟨4, _, _, by decide, rfl, hkey.bind (hvalue.bind
        ((finds_word expected).bind ((finds_word ttl).bind_pure _))), ?_⟩
      simp only [write, ByteArray.append_assoc]
  | clear => exact ⟨5, _, .empty, by decide, rfl, finds_pure _, ByteArray.append_empty.symm⟩

theorem Request.finds_read {request : Request} (h : request.write.size < UInt64.size) :
    read.Finds request.write request := by
  refine Encodes.finds ?_ 8
  cases request with
  | plain operation =>
      refine (Operation.encodes_write h).map plain fun n reader hreader => ?_
      -- no operation has the number of a ping or of a client's request
      unfold reader?
      split
      next => exact nomatch hreader
      next => exact nomatch hreader
      next => rw [hreader]; rfl
  | ping => exact ⟨6, _, .empty, by decide, rfl, finds_pure _, ByteArray.append_empty.symm⟩
  | client operation =>
      rw [write, ByteArray.size_append, size_writeVariant] at h
      have hsize : operation.write.size < UInt64.size := by omega
      have hoperation := (Operation.encodes_write hsize).finds 6
      exact ⟨7, _, _, by decide, rfl, hoperation.bind_pure _, rfl⟩

/-- A request is found again. -/
theorem Request.decode_write {request : Request} (h : request.write.size < UInt64.size) :
    decode request.write = .ok request := decode_of_finds (finds_read h)

theorem Reply.encodes_write {reply : Reply} (h : reply.write.size < UInt64.size) :
    Encodes reader? reply.write reply := by
  cases reply with
  | stored ok => exact ⟨0, _, _, by decide, rfl, (finds_bool ok).bind_pure _, rfl⟩
  | value found =>
      refine ⟨1, _, _, by decide, rfl, (finds_option fun v hv => ?_).bind_pure _, rfl⟩
      obtain rfl : found = some v := hv
      simp only [write, writeOption, ByteArray.size_append, size_writeValue] at h
      exact finds_value (by omega)
  | valueWithToken found =>
      refine ⟨2, _, _, by decide, rfl, (finds_option fun pair hpair => ?_).bind_pure _, rfl⟩
      obtain ⟨v, token⟩ := pair
      obtain rfl : found = some (v, token) := hpair
      simp only [write, writeOption, ByteArray.size_append, size_writeValue] at h
      exact (finds_value (by omega)).bind ((finds_word token).bind_pure _)
  | deleted ok => exact ⟨3, _, _, by decide, rfl, (finds_bool ok).bind_pure _, rfl⟩
  | swapped ok => exact ⟨4, _, _, by decide, rfl, (finds_bool ok).bind_pure _, rfl⟩
  | cleared => exact ⟨5, _, .empty, by decide, rfl, finds_pure _, ByteArray.append_empty.symm⟩
  | pong => exact ⟨6, _, .empty, by decide, rfl, finds_pure _, ByteArray.append_empty.symm⟩

theorem Response.finds_read {response : Response} (h : response.write.size < UInt64.size) :
    read.Finds response.write response := by
  refine Encodes.finds ?_ 8
  cases response with
  | reply r =>
      refine (Reply.encodes_write h).map reply fun n reader hreader => ?_
      -- no reply has the number of an error
      unfold reader?
      split
      next => exact nomatch hreader
      next => rw [hreader]; rfl
  | error text =>
      rw [write, ByteArray.size_append, size_writeVariant, size_writeText] at h
      exact ⟨7, _, _, by decide, rfl, (finds_text (by omega)).bind_pure _, rfl⟩

/-- A response is found again. -/
theorem Response.decode_write {response : Response} (h : response.write.size < UInt64.size) :
    decode response.write = .ok response := decode_of_finds (finds_read h)

end ReplicatedCache
