import ReplicatedCache.Proofs.Wire.Codec

/-! # Nothing but encodings is read

A reader takes off encodings only if what it takes off the front of some bytes is the
encoding of what it finds. Together with the readers finding what was written, this says
which bytes are read as a message: those that start with its encoding. No encoding is then
the start of another one, and a message that was read has the bytes that it was read from
as its encoding.
-/

namespace ReplicatedCache

namespace Wire

theorem ofDigits_lt (list : List UInt8) : ofDigits list < Nat.pow 256 list.length := by
  induction list with
  | nil => exact Nat.zero_lt_one
  | cons b rest ih =>
      have hb := b.toNat_lt
      have hpow : Nat.pow 256 (b :: rest).length = Nat.pow 256 rest.length * 256 := rfl
      rw [ofDigits, hpow]
      omega

namespace Reader

variable {α β : Type} {a : α} {b : β} {input rest : ByteArray}

/-- What a reader takes off the front of some bytes is the encoding of what it finds. -/
def Takes (read : Reader α) (write : α → ByteArray) : Prop :=
  ∀ {input a rest}, read.run input = .ok (a, rest) → input = write a ++ rest

/-- A reader that goes on after something has been read has found that first. -/
theorem exists_of_run_bind {read : Reader α} {next : α → Reader β}
    (h : (read >>= next).run input = .ok (b, rest)) :
    ∃ a behind, read.run input = .ok (a, behind) ∧ (next a).run behind = .ok (b, rest) := by
  rw [StateT.run_bind] at h
  cases hread : read.run input with
  | error error =>
      rw [hread] at h
      cases h
  | ok found =>
      rw [hread] at h
      exact ⟨found.1, found.2, rfl, h⟩

theorem Takes.bind {read : Reader α} {write : α → ByteArray} {next : α → Reader β}
    (h : read.Takes write) (hrun : (read >>= next).run input = .ok (b, rest)) :
    ∃ a behind, input = write a ++ behind ∧ (next a).run behind = .ok (b, rest) := by
  obtain ⟨a, behind, hread, hnext⟩ := exists_of_run_bind hrun
  exact ⟨a, behind, h hread, hnext⟩

theorem Takes.bind_pure {read : Reader α} {write : α → ByteArray} {f : α → β}
    (h : read.Takes write)
    (hrun : (read >>= fun a => pure (f a)).run input = .ok (b, rest)) :
    ∃ a, input = write a ++ rest ∧ f a = b := by
  obtain ⟨a, behind, rfl, hnext⟩ := h.bind hrun
  obtain ⟨rfl, rfl⟩ := Prod.mk.inj (Except.ok.inj hnext)
  exact ⟨a, rfl, rfl⟩

/-! ## Parts of messages -/

theorem eq_append_of_run_take {count : Nat} {short : DecodeError} {taken : ByteArray}
    (h : (take count short).run input = .ok (taken, rest)) :
    input = taken ++ rest ∧ taken.size = count := by
  change take count short input = _ at h
  rw [take] at h
  split at h
  next hle =>
    obtain ⟨rfl, rfl⟩ := Prod.mk.inj (Except.ok.inj h)
    constructor
    · rw [← ByteArray.extract_eq_extract_append_extract count (Nat.zero_le _) hle,
        ByteArray.extract_zero_size]
    · rw [ByteArray.size_extract]
      omega
  next => cases h

theorem eq_append_of_run_number {width n : Nat} (h : (number width).run input = .ok (n, rest)) :
    input = bytes (digits width n) ++ rest ∧ n < Nat.pow 256 width := by
  obtain ⟨taken, behind, htake, hnext⟩ := exists_of_run_bind h
  obtain ⟨rfl, rfl⟩ := Prod.mk.inj (Except.ok.inj hnext)
  obtain ⟨rfl, rfl⟩ := eq_append_of_run_take htake
  have hdigits := digits_ofDigits taken.data.toList
  have hlt := ofDigits_lt taken.data.toList
  have hlength : taken.data.toList.length = taken.size := Array.length_toList
  rw [hlength] at hdigits hlt
  exact ⟨by rw [hdigits]; rfl, hlt⟩

theorem takes_word : word.Takes writeWord := by
  intro input n rest h
  obtain ⟨m, behind, hnumber, hnext⟩ := exists_of_run_bind h
  obtain ⟨rfl, rfl⟩ := Prod.mk.inj (Except.ok.inj hnext)
  obtain ⟨rfl, hlt⟩ := eq_append_of_run_number hnumber
  rw [writeWord, UInt64.toNat_ofNat_of_lt' hlt]

theorem takes_byte : byte.Takes fun b => bytes [b] := by
  intro input b rest h
  obtain ⟨n, behind, hnumber, hnext⟩ := exists_of_run_bind h
  obtain ⟨rfl, rfl⟩ := Prod.mk.inj (Except.ok.inj hnext)
  exact (eq_append_of_run_number hnumber).1

theorem takes_bool : bool.Takes writeBool := by
  intro input ok rest h
  obtain ⟨b, behind, rfl, hnext⟩ := takes_byte.bind h
  split at hnext
  next hzero =>
    obtain ⟨rfl, rfl⟩ := Prod.mk.inj (Except.ok.inj hnext)
    rw [hzero]
    rfl
  next =>
    split at hnext
    next hone =>
      obtain ⟨rfl, rfl⟩ := Prod.mk.inj (Except.ok.inj hnext)
      rw [hone]
      rfl
    next => cases hnext

theorem takes_option {read : Reader α} {write : α → ByteArray} (h : read.Takes write) :
    (option read).Takes (writeOption write) := by
  intro input found rest hrun
  obtain ⟨b, behind, rfl, hnext⟩ := takes_byte.bind hrun
  split at hnext
  next hzero =>
    obtain ⟨rfl, rfl⟩ := Prod.mk.inj (Except.ok.inj hnext)
    rw [hzero]
    rfl
  next =>
    split at hnext
    next hone =>
      obtain ⟨a, rfl, rfl⟩ := h.bind_pure hnext
      rw [hone, ← ByteArray.append_assoc]
      rfl
    next => cases hnext

theorem takes_value : value.Takes writeValue := by
  intro input v rest h
  obtain ⟨size, behind, hnumber, hnext⟩ := exists_of_run_bind h
  obtain ⟨rfl, rfl⟩ := eq_append_of_run_take hnext
  rw [(eq_append_of_run_number hnumber).1, writeValue, ByteArray.append_assoc]

theorem takes_text : text.Takes writeText := by
  intro input t rest h
  obtain ⟨v, behind, rfl, hnext⟩ := takes_value.bind h
  split at hnext
  next t' htext =>
    obtain ⟨rfl, rfl⟩ := Prod.mk.inj (Except.ok.inj hnext)
    rw [String.fromUTF8?] at htext
    split at htext
    next =>
      rw [writeText, ← Option.some.inj htext]
      rfl
    next => cases htext
  next => cases hnext

/-- Whatever the reader of a variant finds is written as this variant. -/
def Spells (readers : Nat → Option (Reader α)) (write : α → ByteArray) : Prop :=
  ∀ {n reader}, readers n = some reader → ∀ {fields a rest},
    reader.run fields = .ok (a, rest) → writeVariant n ++ fields = write a ++ rest

theorem Spells.takes {readers : Nat → Option (Reader α)} {write : α → ByteArray}
    (h : Spells readers write) (count : Nat) : (variant count readers).Takes write := by
  intro input a rest hrun
  obtain ⟨n, fields, hnumber, hnext⟩ := exists_of_run_bind hrun
  split at hnext
  next reader hreader => exact (eq_append_of_run_number hnumber).1.trans (h hreader hnext)
  next => cases hnext

end Reader

/-! ## What is read as a message -/

/-- The bytes start with an encoding. -/
def Extends (input encoded : ByteArray) : Prop := ∃ rest, input = encoded ++ rest

/-- Decoding accepts the extensions of encodings and nothing else. The bytes are no longer
than a length in 64 bits can tell. -/
structure AcceptsExtensions {α : Type} (write : α → ByteArray)
    (decode : ByteArray → Except DecodeError α) : Prop where
  decode_eq_ok_iff : ∀ input a, input.size < UInt64.size →
    (decode input = .ok a ↔ Extends input (write a))
  /-- Everything else is refused. -/
  refused_iff : ∀ input, input.size < UInt64.size →
    ((∃ error, decode input = .error error) ↔ ∀ a, ¬ Extends input (write a))
  /-- No bytes can be read as two messages. -/
  unique : ∀ input a b, input.size < UInt64.size →
    Extends input (write a) → Extends input (write b) → a = b
  /-- No encoding is the start of another one. -/
  prefix_free : ∀ a b, (write b).size < UInt64.size → Extends (write b) (write a) → a = b
  /-- A message that was read is encoded as it was. -/
  encoded_again : ∀ input a, decode input = .ok a → input.extract 0 (write a).size = write a

theorem acceptsExtensions {α : Type} {read : Reader α} {write : α → ByteArray}
    (hfinds : ∀ a, (write a).size < UInt64.size → read.Finds (write a) a)
    (htakes : read.Takes write) : AcceptsExtensions write (Wire.decode read) := by
  have hextends : ∀ input a, Wire.decode read input = .ok a → Extends input (write a) := by
    intro input a h
    rw [Wire.decode] at h
    cases hrun : read.run input with
    | error error =>
        rw [hrun] at h
        cases h
    | ok found =>
        rw [hrun] at h
        obtain rfl := Except.ok.inj h
        exact ⟨found.2, htakes hrun⟩
  have hiff : ∀ input a, input.size < UInt64.size →
      (Wire.decode read input = .ok a ↔ Extends input (write a)) := by
    refine fun input a hsize => ⟨hextends input a, ?_⟩
    rintro ⟨rest, rfl⟩
    rw [ByteArray.size_append] at hsize
    rw [Wire.decode, hfinds a (by omega)]
    rfl
  have hunique : ∀ input a b, input.size < UInt64.size →
      Extends input (write a) → Extends input (write b) → a = b := by
    intro input a b hsize ha hb
    exact Except.ok.inj (((hiff input a hsize).mpr ha).symm.trans ((hiff input b hsize).mpr hb))
  refine ⟨hiff, ?_, hunique, ?_, ?_⟩
  · intro input hsize
    constructor
    · rintro ⟨error, herror⟩ a hinput
      cases herror.symm.trans ((hiff input a hsize).mpr hinput)
    · intro hnone
      cases hdecode : Wire.decode read input with
      | error error => exact ⟨error, rfl⟩
      | ok a => exact absurd (hextends input a hdecode) (hnone a)
  · exact fun a b hsize hstart =>
      hunique (write b) a b hsize hstart ⟨.empty, ByteArray.append_empty.symm⟩
  · intro input a h
    obtain ⟨rest, rfl⟩ := hextends input a h
    exact ByteArray.extract_append_eq_left rfl

end Wire

open Wire Reader

/-! ## Requests and responses -/

theorem Operation.spells : Spells reader? write := by
  intro n reader hreader fields operation rest h
  unfold reader? at hreader
  split at hreader
  case h_1 =>
    obtain rfl := Option.some.inj hreader
    obtain ⟨key, _, rfl, hvalue⟩ := takes_text.bind h
    obtain ⟨value, _, rfl, httl⟩ := takes_value.bind hvalue
    obtain ⟨ttl, rfl, rfl⟩ := takes_word.bind_pure httl
    simp only [write, ByteArray.append_assoc]
  case h_2 | h_3 | h_4 =>
    obtain rfl := Option.some.inj hreader
    obtain ⟨key, rfl, rfl⟩ := takes_text.bind_pure h
    rw [write, ByteArray.append_assoc]
  case h_5 =>
    obtain rfl := Option.some.inj hreader
    obtain ⟨key, _, rfl, hvalue⟩ := takes_text.bind h
    obtain ⟨value, _, rfl, hexpected⟩ := takes_value.bind hvalue
    obtain ⟨expected, _, rfl, httl⟩ := takes_word.bind hexpected
    obtain ⟨ttl, rfl, rfl⟩ := takes_word.bind_pure httl
    simp only [write, ByteArray.append_assoc]
  case h_6 =>
    obtain rfl := Option.some.inj hreader
    obtain ⟨rfl, rfl⟩ := Prod.mk.inj (Except.ok.inj h)
    rfl
  case h_7 => cases hreader

/-- Variants within something wider are spelled as they are by themselves. -/
theorem Wire.Reader.Spells.map {α β : Type} {readers : Nat → Option (Reader α)}
    {write : α → ByteArray} {wider : β → ByteArray} (h : Spells readers write) (f : α → β)
    (hwrite : ∀ a, wider (f a) = write a) :
    Spells (fun n => (readers n).map (f <$> ·)) wider := by
  intro n reader hreader fields b rest hrun
  obtain ⟨inner, hinner, rfl⟩ := Option.map_eq_some_iff.mp hreader
  rw [← bind_pure_comp] at hrun
  obtain ⟨a, behind, hread, hpure⟩ := exists_of_run_bind hrun
  obtain ⟨rfl, rfl⟩ := Prod.mk.inj (Except.ok.inj hpure)
  rw [hwrite]
  exact h hinner hread

theorem Operation.takes_read : read.Takes write := spells.takes 6

theorem Request.spells : Spells reader? write := by
  intro n reader hreader fields request rest h
  unfold reader? at hreader
  split at hreader
  case h_1 =>
    obtain rfl := Option.some.inj hreader
    obtain ⟨rfl, rfl⟩ := Prod.mk.inj (Except.ok.inj h)
    rfl
  case h_2 =>
    obtain rfl := Option.some.inj hreader
    obtain ⟨operation, rfl, rfl⟩ := Operation.takes_read.bind_pure h
    rw [write, ByteArray.append_assoc]
  case h_3 => exact Operation.spells.map plain (fun _ => rfl) hreader h

theorem Reply.spells : Spells reader? write := by
  intro n reader hreader fields reply rest h
  unfold reader? at hreader
  split at hreader
  case h_1 | h_4 | h_5 =>
    obtain rfl := Option.some.inj hreader
    obtain ⟨ok, rfl, rfl⟩ := takes_bool.bind_pure h
    rw [write, ByteArray.append_assoc]
  case h_2 =>
    obtain rfl := Option.some.inj hreader
    obtain ⟨found, rfl, rfl⟩ := Takes.bind_pure (takes_option takes_value) h
    rw [write, ByteArray.append_assoc]
  case h_3 =>
    have hpair : Takes (do pure (← Reader.value, ← Reader.word))
        fun pair => writeValue pair.1 ++ writeWord pair.2 := by
      intro input pair rest hrun
      obtain ⟨v, _, rfl, htoken⟩ := takes_value.bind hrun
      obtain ⟨token, rfl, rfl⟩ := takes_word.bind_pure htoken
      exact (ByteArray.append_assoc ..).symm
    obtain rfl := Option.some.inj hreader
    obtain ⟨found, rfl, rfl⟩ := Takes.bind_pure (takes_option hpair) h
    rw [write, ByteArray.append_assoc]
  case h_6 | h_7 =>
    obtain rfl := Option.some.inj hreader
    obtain ⟨rfl, rfl⟩ := Prod.mk.inj (Except.ok.inj h)
    rfl
  case h_8 => cases hreader

theorem Response.spells : Spells reader? write := by
  intro n reader hreader fields response rest h
  unfold reader? at hreader
  split at hreader
  case h_1 =>
    obtain rfl := Option.some.inj hreader
    obtain ⟨message, rfl, rfl⟩ := takes_text.bind_pure h
    rw [write, ByteArray.append_assoc]
  case h_2 => exact Reply.spells.map reply (fun _ => rfl) hreader h

/-- Bytes are decoded as a request, or as a response, if and only if they start with its
encoding. It is the only one with which they start, no encoding is the start of another
one, and it is encoded again as it was. -/
theorem messages_accept_extensions :
    AcceptsExtensions Request.write Request.decode ∧
      AcceptsExtensions Response.write Response.decode :=
  ⟨acceptsExtensions (fun _ => Request.finds_read) (Request.spells.takes 8),
    acceptsExtensions (fun _ => Response.finds_read) (Response.spells.takes 8)⟩

/-- A request is read although a byte comes after it. -/
theorem messages_accept_extensions_get :
    let request := Request.plain (.get "k")
    let input := request.write ++ bytes [7]
    input.size < UInt64.size ∧ Request.decode input = .ok request := by
  intro request input
  have hsize : input.size < UInt64.size := by decide
  exact ⟨hsize, (messages_accept_extensions.1.decode_eq_ok_iff input request hsize).mpr ⟨_, rfl⟩⟩

end ReplicatedCache
