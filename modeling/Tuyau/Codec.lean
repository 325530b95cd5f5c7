import Tuyau.BigEndian
import Tuyau.Chunks
import Tuyau.Frame
import Tuyau.StreamDecoder

/-! # The frame codec

A frame is the length of its payload as a big-endian `u32`, followed by the payload, the CBOR form of
a message.  `FrameCodec` encodes and decodes frames in a buffer and `read_frame` takes one off a
stream.  The CBOR library is a parameter: `fromReader` decodes a payload or fails with a message, and
a `Cbor` is a pair of an encoder and a decoder that undoes it.

`classify` says what a string of bytes is at the level of frames, and decoding is described by it
(`decode_eq`).  The main result is `frames_survive_chunking`: the frames of any values arrive in order,
each when its last byte does, however the bytes are cut. -/

namespace Tuyau

open AsciiText StreamDecoder

/-- A string of bytes. -/
abbrev Bytes := List UInt8

/-- `MAX_FRAME_SIZE`. -/
def maxFrameSize : ℕ := 64 * 1024

/-- `LEN_PREFIX_SIZE`. -/
def lenPrefixSize : ℕ := 4

/-- `ProtocolError`; of the io errors a stream that ends early is the one there is. -/
inductive ProtocolError where
  | io
  | cbor (message : Text)
  | oversizedFrame (len max : ℕ)
deriving DecidableEq

/-- The CBOR library at one type of messages: it decodes what it encoded. -/
structure Cbor (F : Type*) where
  intoWriter : F → Except Text Bytes
  fromReader : Bytes → Except Text F
  fromReader_intoWriter : ∀ {x p}, intoWriter x = .ok p → fromReader p = .ok x

variable {F : Type*}

/-- Encode a message at the end of `dst`. -/
def FrameCodec.encode (intoWriter : F → Except Text Bytes) (item : F) (dst : Bytes) :
    Except ProtocolError Unit × Bytes :=
  match intoWriter item with
  | .error e => (.error (.cbor e), dst)
  | .ok payload =>
      if maxFrameSize < payload.length then
        (.error (.oversizedFrame payload.length maxFrameSize), dst)
      else (.ok (), dst ++ BigEndian.toBytes lenPrefixSize payload.length ++ payload)

section

variable (fromReader : Bytes → Except Text F)

/-- Decode a message from the front of `src`; the second component is `src` afterwards. -/
def FrameCodec.decode (src : Bytes) : Except ProtocolError (Option F) × Bytes :=
  if src.length < lenPrefixSize then (.ok none, src)
  else
    let frameLen := BigEndian.ofBytes (src.take lenPrefixSize)
    if maxFrameSize < frameLen then (.error (.oversizedFrame frameLen maxFrameSize), src)
    else if src.length < lenPrefixSize + frameLen then (.ok none, src)
    else
      let src := src.drop lenPrefixSize
      (((fromReader (src.take frameLen)).mapError .cbor).map some, src.drop frameLen)

/-- Read one frame off a stream; the second component is the stream afterwards. -/
def readFrame (r : List Bytes) : Except ProtocolError F × List Bytes :=
  match Chunks.readExact lenPrefixSize r with
  | none => (.error .io, [])
  | some (lenBuf, r) =>
      let frameLen := BigEndian.ofBytes lenBuf
      if maxFrameSize < frameLen then (.error (.oversizedFrame frameLen maxFrameSize), r)
      else
        match Chunks.readExact frameLen r with
        | none => (.error .io, [])
        | some (payload, r) => ((fromReader payload).mapError .cbor, r)

end

/-! ### What bytes are at the level of frames -/

/-- Too long a frame, less than a frame, or a frame and what follows it. -/
inductive Framing where
  | oversized (len : ℕ)
  | incomplete
  | frame (payload rest : Bytes)
deriving DecidableEq

/-- The length that the first four bytes say. -/
def frameLen (w : Bytes) : ℕ := BigEndian.ofBytes (w.take lenPrefixSize)

/-- What a string of bytes is. -/
def classify (w : Bytes) : Framing :=
  if w.length < lenPrefixSize then .incomplete
  else if maxFrameSize < frameLen w then .oversized (frameLen w)
  else if w.length < lenPrefixSize + frameLen w then .incomplete
  else .frame ((w.drop lenPrefixSize).take (frameLen w)) (w.drop (lenPrefixSize + frameLen w))

section

variable {w payload rest : Bytes} {len : ℕ}

theorem classify_eq_oversized : classify w = .oversized len ↔
    lenPrefixSize ≤ w.length ∧ maxFrameSize < len ∧ frameLen w = len := by
  rw [classify]
  split_ifs with hlen hmax hshort
  · simp only [false_iff, not_and]
    omega
  · rw [Framing.oversized.injEq]
    constructor
    · rintro rfl
      exact ⟨Nat.not_lt.mp hlen, hmax, rfl⟩
    · exact fun h => h.2.2
  all_goals
    simp only [false_iff, not_and]
    rintro - hover rfl
    exact hmax hover

theorem classify_eq_frame : classify w = .frame payload rest ↔
    lenPrefixSize + frameLen w ≤ w.length ∧ frameLen w ≤ maxFrameSize ∧
      payload = (w.drop lenPrefixSize).take (frameLen w) ∧
      rest = w.drop (lenPrefixSize + frameLen w) := by
  rw [classify]
  split_ifs with hlen hmax hshort
  · simp only [false_iff, not_and]
    omega
  · simp only [false_iff, not_and]
    omega
  · simp only [false_iff, not_and]
    omega
  · rw [Framing.frame.injEq]
    constructor
    · rintro ⟨rfl, rfl⟩
      exact ⟨Nat.not_lt.mp hshort, Nat.not_lt.mp hmax, rfl, rfl⟩
    · exact fun h => ⟨h.2.2.1.symm, h.2.2.2.symm⟩

theorem classify_eq_incomplete : classify w = .incomplete ↔
    w.length < lenPrefixSize ∨ frameLen w ≤ maxFrameSize ∧ w.length < lenPrefixSize + frameLen w := by
  rw [classify]
  split_ifs with hlen hmax hshort
  · simp only [hlen, true_or]
  · simp only [hlen, false_or, false_iff, not_and]
    omega
  · simp only [hshort, and_true, true_iff]
    exact .inr (Nat.not_lt.mp hmax)
  · simp only [hlen, hshort, and_false, or_false]

theorem frameLen_append (h : lenPrefixSize ≤ w.length) (more : Bytes) :
    frameLen (w ++ more) = frameLen w := by
  rw [frameLen, frameLen, List.take_append_of_le_length h]

theorem classify_append_oversized (h : classify w = .oversized len) (more : Bytes) :
    classify (w ++ more) = .oversized len := by
  rw [classify_eq_oversized] at h ⊢
  refine ⟨?_, h.2.1, ?_⟩
  · rw [List.length_append]
    exact h.1.trans (Nat.le_add_right _ _)
  · rw [frameLen_append h.1]
    exact h.2.2

theorem classify_append_frame (h : classify w = .frame payload rest) (more : Bytes) :
    classify (w ++ more) = .frame payload (rest ++ more) := by
  rw [classify_eq_frame] at h ⊢
  obtain ⟨hlen, hmax, rfl, rfl⟩ := h
  rw [frameLen_append (by omega), List.length_append]
  refine ⟨by omega, hmax, ?_, ?_⟩
  · rw [List.drop_append_of_le_length (by omega), List.take_append_of_le_length]
    rw [List.length_drop]
    omega
  · rw [List.drop_append_of_le_length hlen]

/-- The length of a payload and the payload. -/
def frame (payload : Bytes) : Bytes := BigEndian.toBytes lenPrefixSize payload.length ++ payload

@[simp] theorem length_frame (payload : Bytes) :
    (frame payload).length = lenPrefixSize + payload.length := by
  rw [frame, List.length_append, BigEndian.length_toBytes]

/-- The prefix of a frame says how long its payload is. -/
theorem frameLen_of_isPrefix (hmax : payload.length ≤ maxFrameSize) {part : Bytes}
    (hpart : part <+: frame payload) (hlen : lenPrefixSize ≤ part.length) :
    frameLen part = payload.length := by
  obtain ⟨more, hmore⟩ := hpart
  have hfit : payload.length < 256 ^ lenPrefixSize := lt_of_le_of_lt hmax (by decide)
  rw [← frameLen_append hlen more, hmore, frameLen, frame,
    List.take_append_of_le_length (by rw [BigEndian.length_toBytes]),
    List.take_of_length_le (by rw [BigEndian.length_toBytes]), BigEndian.ofBytes_toBytes hfit]

theorem classify_frame_append (hmax : payload.length ≤ maxFrameSize) (rest : Bytes) :
    classify (frame payload ++ rest) = .frame payload rest := by
  have hframe : classify (frame payload) = .frame payload [] := by
    have hlen := frameLen_of_isPrefix hmax List.prefix_rfl (by rw [length_frame]; omega)
    rw [classify_eq_frame, hlen, length_frame]
    refine ⟨le_rfl, hmax, ?_, ?_⟩
    · rw [frame, List.drop_left' (BigEndian.length_toBytes _ _), List.take_length]
    · rw [List.drop_of_length_le (by rw [length_frame])]
  exact classify_append_frame hframe rest

/-- Part of a frame is less than a frame. -/
theorem classify_of_isPrefix (hmax : payload.length ≤ maxFrameSize) {part : Bytes}
    (hpart : part <+: frame payload) (hne : part ≠ frame payload) :
    classify part = .incomplete := by
  rw [classify_eq_incomplete]
  by_cases hlen : part.length < lenPrefixSize
  · exact .inl hlen
  · have hshort : part.length < (frame payload).length :=
      lt_of_le_of_ne hpart.length_le fun h => hne (hpart.eq_of_length h)
    rw [length_frame] at hshort
    rw [frameLen_of_isPrefix hmax hpart (Nat.not_lt.mp hlen)]
    exact .inr ⟨hmax, hshort⟩

end

/-! ### The decoder -/

section

variable (fromReader : Bytes → Except Text F)

/-- Decoding, by what the buffer is. -/
theorem decode_eq (src : Bytes) :
    FrameCodec.decode fromReader src =
      match classify src with
      | .oversized len => (.error (.oversizedFrame len maxFrameSize), src)
      | .incomplete => (.ok none, src)
      | .frame payload rest => (((fromReader payload).mapError .cbor).map some, rest) := by
  rw [FrameCodec.decode, classify]
  dsimp only
  rw [← frameLen]
  split_ifs
  · rfl
  · rfl
  · rfl
  · rw [List.drop_drop]

/-- The codec as a decoder of a stream. -/
def FrameCodec.decoder : Decoder F UInt8 ProtocolError where
  decode := FrameCodec.decode fromReader
  decode_nil := rfl
  shrinks := by
    intro src a rest h
    rw [decode_eq] at h
    split at h
    · simp at h
    · simp at h
    · next payload rest' hframe =>
        obtain ⟨hlen, -, -, rfl⟩ := classify_eq_frame.mp hframe
        obtain rfl := (Prod.mk.inj h).2
        rw [List.length_drop]
        have : 0 < lenPrefixSize := by decide
        omega

@[simp] theorem decoder_decode :
    (FrameCodec.decoder fromReader).decode = FrameCodec.decode fromReader := rfl

theorem decoder_stable : (FrameCodec.decoder fromReader).Stable where
  keeps := by
    intro buf rest h
    rw [decoder_decode, decode_eq] at h
    split at h
    · simp at h
    · exact (Prod.mk.inj h).2.symm
    · next payload _ _ =>
        cases hp : fromReader payload <;> simp [hp, Except.mapError, Except.map] at h
  grows := by
    intro buf answer rest more h hne
    rw [decoder_decode, decode_eq] at h ⊢
    split at h
    · next len hover =>
        obtain ⟨rfl, rfl⟩ := Prod.mk.inj h
        rw [classify_append_oversized hover]
    · exact absurd (Prod.mk.inj h).1.symm hne
    · next payload rest' hframe =>
        obtain ⟨rfl, rfl⟩ := Prod.mk.inj h
        rw [classify_append_frame hframe]

end

/-! ### Frames in chunks -/

theorem encode_of_fits {intoWriter : F → Except Text Bytes} {item : F} {payload : Bytes}
    (h : intoWriter item = .ok payload) (hmax : payload.length ≤ maxFrameSize) (dst : Bytes) :
    FrameCodec.encode intoWriter item dst = (.ok (), dst ++ frame payload) := by
  rw [FrameCodec.encode, h]
  dsimp only
  rw [if_neg (Nat.not_lt.mpr hmax), frame, List.append_assoc]

theorem encode_of_oversized {intoWriter : F → Except Text Bytes} {item : F} {payload : Bytes}
    (h : intoWriter item = .ok payload) (hmax : maxFrameSize < payload.length) (dst : Bytes) :
    FrameCodec.encode intoWriter item dst =
      (.error (.oversizedFrame payload.length maxFrameSize), dst) := by
  rw [FrameCodec.encode, h]
  dsimp only
  rw [if_pos hmax]

/-- An encoding that succeeds adds the frame of the payload. -/
theorem payload_of_encode {intoWriter : F → Except Text Bytes} {item : F} {dst dst' : Bytes}
    (h : FrameCodec.encode intoWriter item dst = (.ok (), dst')) :
    ∃ payload, intoWriter item = .ok payload ∧ payload.length ≤ maxFrameSize ∧
      dst' = dst ++ frame payload := by
  cases hp : intoWriter item with
  | error e => simp [FrameCodec.encode, hp] at h
  | ok payload =>
      by_cases hmax : payload.length ≤ maxFrameSize
      · rw [encode_of_fits hp hmax] at h
        exact ⟨payload, rfl, hmax, (Prod.mk.inj h).2.symm⟩
      · simp [encode_of_oversized hp (Nat.not_le.mp hmax)] at h

namespace Cbor

variable (cbor : Cbor F)

/-- The payload of a message is at most `MAX_FRAME_SIZE` long. -/
def Fits (x : F) : Prop := ∃ payload, cbor.intoWriter x = .ok payload ∧ payload.length ≤ maxFrameSize

/-- The bytes `FrameCodec` makes of a message. -/
def encoding (x : F) : Bytes := (FrameCodec.encode cbor.intoWriter x []).2

variable {cbor}

theorem decode_frame_append {x : F} {payload : Bytes} (hp : cbor.intoWriter x = .ok payload)
    (hmax : payload.length ≤ maxFrameSize) (rest : Bytes) :
    FrameCodec.decode cbor.fromReader (frame payload ++ rest) = (.ok (some x), rest) := by
  rw [decode_eq, classify_frame_append hmax]
  dsimp only
  rw [cbor.fromReader_intoWriter hp]
  rfl

theorem Fits.decodes {x : F} (h : cbor.Fits x) :
    (FrameCodec.decoder cbor.fromReader).Decodes cbor.encoding x := by
  obtain ⟨payload, hp, hmax⟩ := h
  have henc : cbor.encoding x = frame payload := by
    rw [encoding, encode_of_fits hp hmax, List.nil_append]
  constructor
  · intro rest
    rw [decoder_decode, henc]
    exact decode_frame_append hp hmax rest
  · intro part hpart hne
    rw [henc] at hpart hne
    rw [decoder_decode, decode_eq, classify_of_isPrefix hmax hpart hne]

end Cbor

/-- **Frames survive any chunking.**  Whatever chunks the frames of some messages arrive in, decoding
never fails, a message is yielded exactly when the last byte of its frame is there, and at the end
all were yielded and the buffer is empty.  A message too long for a frame is refused with the buffer
untouched, and every frame that is made can be decoded. -/
theorem frames_survive_chunking (cbor : Cbor F) :
    (∀ xs chunks, (∀ x ∈ xs, cbor.Fits x) → chunks.flatten = Decoder.wire cbor.encoding xs →
      (∀ n, ∃ items buf,
        (FrameCodec.decoder cbor.fromReader).run (chunks.take n) = ⟨items, none, buf⟩ ∧
        items <+: xs ∧
        ∀ i < xs.length, i < items.length ↔
          (Decoder.wire cbor.encoding (xs.take (i + 1))).length ≤ (chunks.take n).flatten.length) ∧
      (FrameCodec.decoder cbor.fromReader).run chunks = ⟨xs, none, []⟩) ∧
    (∀ x payload dst, cbor.intoWriter x = .ok payload → maxFrameSize < payload.length →
      FrameCodec.encode cbor.intoWriter x dst =
        (.error (.oversizedFrame payload.length maxFrameSize), dst)) ∧
    ∀ x dst dst', FrameCodec.encode cbor.intoWriter x dst = (.ok (), dst') →
      ∃ added, dst' = dst ++ added ∧
        ∀ rest, FrameCodec.decode cbor.fromReader (added ++ rest) = (.ok (some x), rest) := by
  refine ⟨?_, fun x payload dst hp hmax => encode_of_oversized hp hmax dst, ?_⟩
  · intro xs chunks hxs hchunks
    have hdec : ∀ x ∈ xs, (FrameCodec.decoder cbor.fromReader).Decodes cbor.encoding x :=
      fun x hx => (hxs x hx).decodes
    constructor
    · intro n
      have hpart : (chunks.take n).flatten <+: Decoder.wire cbor.encoding xs := by
        have htake : chunks.take n <+: chunks := List.take_prefix n chunks
        rw [← hchunks]
        exact htake.flatten
      have hprogress := Decoder.progress_run hdec hpart
      rcases hrun : (FrameCodec.decoder cbor.fromReader).run (chunks.take n) with ⟨items, failed, buf⟩
      rw [hrun] at hprogress
      obtain rfl : failed = none := hprogress.unfailed
      exact ⟨items, buf, rfl, hprogress.isPrefix, fun i hi => hprogress.lt_length_iff hi⟩
    · have hwhole : chunks.flatten <+: Decoder.wire cbor.encoding xs := by rw [hchunks]
      have hall := Decoder.progress_run hdec hwhole
      rw [hchunks] at hall
      exact hall.eq_of_wire
  · intro x dst dst' henc
    obtain ⟨payload, hp, hmax, hdst⟩ := payload_of_encode henc
    exact ⟨frame payload, hdst, Cbor.decode_frame_append hp hmax⟩

/-- A key that occurs once is found where it is. -/
theorem find?_of_nodup_map {α β : Type*} [DecidableEq β] {f : α → β} {l : List α} (hl : (l.map f).Nodup) {a : α}
    (ha : a ∈ l) : (l.find? fun e => f e = f a) = some a := by
  obtain ⟨e, hfind⟩ : ∃ e, (l.find? fun e => f e = f a) = some e :=
    Option.isSome_iff_exists.mp (List.find?_isSome.mpr ⟨a, ha, decide_eq_true rfl⟩)
  have hsame : f e = f a := by simpa using List.find?_some hfind
  rw [hfind, List.inj_on_of_nodup_map hl (List.mem_of_find?_eq_some hfind) ha hsame]

/-- A CBOR library that knows some messages with their payloads. -/
def Cbor.ofTable [DecidableEq F] (table : List (F × Bytes)) (hpayloads : (table.map Prod.snd).Nodup) :
    Cbor F where
  intoWriter x := (table.find? fun e => e.1 = x).elim (.error "unknown message".toList) fun e => .ok e.2
  fromReader p := (table.find? fun e => e.2 = p).elim (.error "unknown payload".toList) fun e => .ok e.1
  fromReader_intoWriter := by
    intro x p h
    cases hfind : table.find? fun e => e.1 = x with
    | none =>
        rw [hfind] at h
        cases h
    | some e =>
        rw [hfind] at h
        obtain rfl : e.2 = p := Except.ok.inj h
        obtain rfl : e.1 = x := by simpa using List.find?_some hfind
        rw [find?_of_nodup_map hpayloads (List.mem_of_find?_eq_some hfind)]
        rfl

theorem Cbor.intoWriter_ofTable [DecidableEq F] {table : List (F × Bytes)} (hpayloads : (table.map Prod.snd).Nodup)
    (hmessages : (table.map Prod.fst).Nodup) {e : F × Bytes} (he : e ∈ table) :
    (ofTable table hpayloads).intoWriter e.1 = .ok e.2 := by
  unfold ofTable
  dsimp only
  rw [find?_of_nodup_map hmessages he]
  rfl

/-- A text of less than 24 ASCII characters in CBOR. -/
def cborText (t : Text) : Bytes := UInt8.ofNat (0x60 + t.length) :: t.map fun c => UInt8.ofNat c.toNat

/-- A refusal in CBOR, with the text of its reason. -/
def cborReject (reason : Bytes) : Bytes :=
  0xa1 :: cborText "Reject".toList ++ 0xa1 :: cborText "reason".toList ++ reason

theorem length_cborReject (reason : Bytes) : (cborReject reason).length = 16 + reason.length := by
  rw [cborReject, List.length_append]
  rfl

/-- A reason of 65536 characters, whose length takes four bytes. -/
def longReason : Bytes := [0x7a, 0, 1, 0, 0] ++ List.replicate 65536 0x61

/-- The answers of a server with their payloads. -/
def responseTable : List (HelloResponse × Bytes) :=
  [(.welcome, cborText "Welcome".toList),
    (.reject "invalid token".toList, cborReject (cborText "invalid token".toList)),
    (.reject (List.replicate 65536 'a'), cborReject longReason)]

theorem responseTable_payloads : (responseTable.map Prod.snd).Nodup := by decide +kernel

def responseCbor : Cbor HelloResponse := .ofTable responseTable responseTable_payloads

/-- Two answers in chunks that cut both length prefixes, one that is too long, and one encoded at the end of a
buffer. -/
theorem frames_survive_chunking_responses :
    (FrameCodec.decoder responseCbor.fromReader).run
        [[0, 0], [0, 8] ++ cborText "Welcome".toList ++ [0, 0, 0],
          [30] ++ cborReject (cborText "invalid token".toList)] =
      ⟨[.welcome, .reject "invalid token".toList], none, []⟩ ∧
    FrameCodec.encode responseCbor.intoWriter (.reject (List.replicate 65536 'a')) [9] =
      (.error (.oversizedFrame 65557 maxFrameSize), [9]) ∧
    ∃ added, [9, 0, 0, 0, 8] ++ cborText "Welcome".toList = [9] ++ added ∧
      ∀ rest, FrameCodec.decode responseCbor.fromReader (added ++ rest) = (.ok (some .welcome), rest) := by
  obtain ⟨hchunks, hover, hmade⟩ := frames_survive_chunking responseCbor
  refine ⟨?_, ?_, hmade .welcome [9] _ rfl⟩
  · refine (hchunks [.welcome, .reject "invalid token".toList] _ ?_ (by decide +kernel)).2
    intro x hx
    rcases List.mem_cons.mp hx with rfl | hx
    · exact ⟨_, rfl, by decide⟩
    · rw [List.mem_singleton.mp hx]
      exact ⟨_, rfl, by decide⟩
  · have hlen : (cborReject longReason).length = 65557 := by
      rw [length_cborReject, longReason, List.length_append, List.length_replicate]
      rfl
    have hpayload := Cbor.intoWriter_ofTable responseTable_payloads (by decide +kernel)
      (List.getLast_mem (l := responseTable) (List.cons_ne_nil _ _))
    rw [← hlen]
    exact hover _ _ [9] hpayload (hlen ▸ by decide)

end Tuyau
