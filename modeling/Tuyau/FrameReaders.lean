import Tuyau.Codec

/-! # The readers of a data stream

A data stream is a framed `DataStreamHeader` followed by raw bytes, and there are three ways to take
the header off it: `read_frame` reads exactly the frame, `FrameCodec` decodes a buffer that grows, and
`readFrame` of the TypeScript client pulls chunks and hands back what it read too far.

The main result is `frame_readers_agree`: all three classify the bytes of a stream as `classify` does,
wherever they are cut into chunks, and keep what follows the frame; so both clients pass the bytes
behind the header to the local service as they are. -/

namespace Tuyau

open AsciiText StreamDecoder

/-- What `readFrame` of the TypeScript client throws. -/
inductive SdkError where
  | ended
  | oversized (len : ℕ)
  | cbor (message : Text)
deriving DecidableEq

namespace Sdk

/-- `readFrame`: the value of a frame and the bytes read after it, and the chunks not yet pulled. -/
def readFrame {V : Type*} (decode : Bytes → Except Text V) (reader : List Bytes) :
    Except SdkError (V × Bytes) × List Bytes :=
  match Chunks.pullTo lenPrefixSize [] reader with
  | none => (.error .ended, [])
  | some (buf, reader) =>
      let len := BigEndian.ofBytes (buf.take lenPrefixSize)
      if maxFrameSize < len then (.error (.oversized len), reader)
      else
        match Chunks.pullTo (lenPrefixSize + len) buf reader with
        | none => (.error .ended, [])
        | some (buf, reader) =>
            let payload := (buf.drop lenPrefixSize).take len
            let leftover := buf.drop (lenPrefixSize + len)
            (((decode payload).mapError .cbor).map fun value => (value, leftover), reader)

/-- `handleDataStream`: the local service a stream is for and what is written to it. -/
def handleDataStream (decode : Bytes → Except Text DataStreamHeader) (ingress : Text → Option Text)
    (connect : Text → Bool) (reader : List Bytes) : Option (Text × List Bytes) :=
  match readFrame decode reader with
  | (.error _, _) => none
  | (.ok (header, leftover), reader) =>
      match ingress header.hostname with
      | none => none
      | some addr =>
          -- an empty string is as good as no rule
          if addr.isEmpty || !connect addr then none
          else some (addr, (if 0 < leftover.length then [leftover] else []) ++ reader)

end Sdk

/-- `accept_bi` and `forward_stream` of the Rust client: the local service and what is copied to it. -/
def forwardStream (fromReader : Bytes → Except Text DataStreamHeader) (ingress : Text → Option Text)
    (connect : Text → Bool) (recv : List Bytes) : Option (Text × List Bytes) :=
  match readFrame fromReader recv with
  | (.error _, _) => none
  | (.ok header, recv) =>
      match ingress header.hostname with
      | none => none
      | some addr => if connect addr then some (addr, recv) else none

/-! ### Each reader by itself -/

section

variable {F : Type*} (fromReader : Bytes → Except Text F) {chunks : List Bytes}
  {payload rest : Bytes} {len : ℕ}

theorem readFrame_oversized (h : classify chunks.flatten = .oversized len) :
    (readFrame fromReader chunks).1 = .error (.oversizedFrame len maxFrameSize) := by
  obtain ⟨hlen, hmax, rfl⟩ := classify_eq_oversized.mp h
  obtain ⟨left, hread, -⟩ := Chunks.exists_readExact hlen
  rw [readFrame, hread]
  dsimp only
  rw [← frameLen, if_pos hmax]

theorem readFrame_incomplete (h : classify chunks.flatten = .incomplete) :
    (readFrame fromReader chunks).1 = .error .io := by
  rw [readFrame]
  rcases Nat.lt_or_ge chunks.flatten.length lenPrefixSize with hlen | hlen
  · rw [Chunks.readExact_eq_none hlen]
  · obtain ⟨hmax, hshort⟩ := (classify_eq_incomplete.mp h).resolve_left (Nat.not_lt.mpr hlen)
    obtain ⟨left, hread, hleft⟩ := Chunks.exists_readExact hlen
    have hend : left.flatten.length < frameLen chunks.flatten := by
      rw [hleft, List.length_drop]
      omega
    rw [hread]
    dsimp only
    rw [← frameLen, if_neg (Nat.not_lt.mpr hmax), Chunks.readExact_eq_none hend]

theorem readFrame_frame (h : classify chunks.flatten = .frame payload rest) :
    ∃ left, readFrame fromReader chunks = ((fromReader payload).mapError .cbor, left) ∧
      left.flatten = rest := by
  obtain ⟨hlen, hmax, rfl, rfl⟩ := classify_eq_frame.mp h
  obtain ⟨left, hread, hleft⟩ := Chunks.exists_readExact ((Nat.le_add_right _ _).trans hlen)
  have hthere : frameLen chunks.flatten ≤ left.flatten.length := by
    rw [hleft, List.length_drop]
    omega
  obtain ⟨left', hread', hleft'⟩ := Chunks.exists_readExact hthere
  refine ⟨left', ?_, ?_⟩
  · rw [readFrame, hread]
    dsimp only
    rw [← frameLen, if_neg (Nat.not_lt.mpr hmax), hread', hleft]
  · rw [hleft', hleft, List.drop_drop]

theorem next_oversized (h : classify chunks.flatten = .oversized len) :
    ((FrameCodec.decoder fromReader).next [] chunks).1.1 =
      .error (.oversizedFrame len maxFrameSize) := by
  obtain ⟨buf, left, hnext, -⟩ := Decoder.exists_next (decoder_stable fromReader) [] chunks
  rw [List.nil_append, decoder_decode, decode_eq, h] at hnext
  rw [hnext]

theorem next_incomplete (h : classify chunks.flatten = .incomplete) :
    (FrameCodec.decoder fromReader).next [] chunks = ((.ok none, chunks.flatten), []) := by
  obtain ⟨buf, left, hnext, hrest, hwait⟩ :=
    Decoder.exists_next (decoder_stable fromReader) [] chunks
  rw [List.nil_append, decoder_decode, decode_eq, h] at hnext hrest hwait
  obtain rfl := hwait rfl
  rw [List.flatten_nil, List.append_nil] at hrest
  rw [hnext, hrest]

theorem next_frame (h : classify chunks.flatten = .frame payload rest) :
    ∃ buf left, (FrameCodec.decoder fromReader).next [] chunks =
        ((((fromReader payload).mapError .cbor).map some, buf), left) ∧
      buf ++ left.flatten = rest := by
  obtain ⟨buf, left, hnext, hrest, -⟩ := Decoder.exists_next (decoder_stable fromReader) [] chunks
  rw [List.nil_append, decoder_decode, decode_eq, h] at hnext hrest
  exact ⟨buf, left, hnext, hrest⟩

end

namespace Sdk

variable {V : Type*} (decode : Bytes → Except Text V) {chunks : List Bytes}
  {payload rest : Bytes} {len : ℕ}

/-- The first pull gets a buffer whose first bytes are those of the stream. -/
theorem exists_pullTo_prefix (hlen : lenPrefixSize ≤ chunks.flatten.length) :
    ∃ buf left, Chunks.pullTo lenPrefixSize [] chunks = some (buf, left) ∧
      buf ++ left.flatten = chunks.flatten ∧
      BigEndian.ofBytes (buf.take lenPrefixSize) = frameLen chunks.flatten := by
  have hlen' : lenPrefixSize ≤ ([] ++ chunks.flatten).length := hlen
  obtain ⟨buf, left, hpull, hall, hbuf⟩ := Chunks.exists_pullTo hlen'
  refine ⟨buf, left, hpull, hall, ?_⟩
  rw [List.nil_append] at hall
  rw [← hall, frameLen_append hbuf, frameLen]

theorem readFrame_oversized (h : classify chunks.flatten = .oversized len) :
    (readFrame decode chunks).1 = .error (.oversized len) := by
  obtain ⟨hlen, hmax, rfl⟩ := classify_eq_oversized.mp h
  obtain ⟨buf, left, hpull, -, hframe⟩ := exists_pullTo_prefix hlen
  rw [readFrame, hpull]
  dsimp only
  rw [hframe, if_pos hmax]

theorem readFrame_incomplete (h : classify chunks.flatten = .incomplete) :
    (readFrame decode chunks).1 = .error .ended := by
  rw [readFrame]
  rcases Nat.lt_or_ge chunks.flatten.length lenPrefixSize with hlen | hlen
  · rw [Chunks.pullTo_eq_none hlen]
  · obtain ⟨hmax, hshort⟩ := (classify_eq_incomplete.mp h).resolve_left (Nat.not_lt.mpr hlen)
    obtain ⟨buf, left, hpull, hall, hframe⟩ := exists_pullTo_prefix hlen
    rw [← hall] at hshort
    rw [hpull]
    dsimp only
    rw [hframe, if_neg (Nat.not_lt.mpr hmax), ← hall, Chunks.pullTo_eq_none hshort]

theorem readFrame_frame (h : classify chunks.flatten = .frame payload rest) :
    ∃ leftover left, readFrame decode chunks =
        (((decode payload).mapError .cbor).map fun value => (value, leftover), left) ∧
      leftover ++ left.flatten = rest := by
  obtain ⟨hlen, hmax, -⟩ := classify_eq_frame.mp h
  obtain ⟨buf, left, hpull, hall, hframe⟩ := exists_pullTo_prefix ((Nat.le_add_right _ _).trans hlen)
  obtain ⟨buf', left', hpull', hall', hbuf'⟩ :=
    Chunks.exists_pullTo (n := lenPrefixSize + frameLen chunks.flatten) (by rw [hall]; exact hlen)
  rw [hall] at hall'
  have hlen' : frameLen buf' = frameLen chunks.flatten := by
    rw [← hall', frameLen_append ((Nat.le_add_right _ _).trans hbuf')]
  -- what was pulled is a frame already, and the rest of the stream follows it
  have hclass := classify_append_frame (classify_eq_frame.mpr
    ⟨hlen' ▸ hbuf', hlen' ▸ hmax, rfl, rfl⟩) left'.flatten
  rw [hall', h, hlen'] at hclass
  obtain ⟨rfl, rfl⟩ := Framing.frame.inj hclass
  refine ⟨buf'.drop (lenPrefixSize + frameLen chunks.flatten), left', ?_, rfl⟩
  rw [readFrame, hpull]
  dsimp only
  rw [hframe, if_neg (Nat.not_lt.mpr hmax), hpull']

end Sdk

/-! ### All three -/

/-- What the three readers make of a stream in chunks, by what its bytes are. -/
def ReadersAgree {F V : Type*} (fromReader : Bytes → Except Text F) (decode : Bytes → Except Text V)
    (chunks : List Bytes) : Framing → Prop
  | .oversized len =>
      (readFrame fromReader chunks).1 = .error (.oversizedFrame len maxFrameSize) ∧
      ((FrameCodec.decoder fromReader).next [] chunks).1.1 =
        .error (.oversizedFrame len maxFrameSize) ∧
      (Sdk.readFrame decode chunks).1 = .error (.oversized len)
  | .incomplete =>
      (readFrame fromReader chunks).1 = .error .io ∧
      (FrameCodec.decoder fromReader).next [] chunks = ((.ok none, chunks.flatten), []) ∧
      (Sdk.readFrame decode chunks).1 = .error .ended
  | .frame payload rest =>
      (∃ left, readFrame fromReader chunks = ((fromReader payload).mapError .cbor, left) ∧
        left.flatten = rest) ∧
      (∃ buf left, (FrameCodec.decoder fromReader).next [] chunks =
          ((((fromReader payload).mapError .cbor).map some, buf), left) ∧
        buf ++ left.flatten = rest) ∧
      ∃ leftover left, Sdk.readFrame decode chunks =
          (((decode payload).mapError .cbor).map fun value => (value, leftover), left) ∧
        leftover ++ left.flatten = rest

theorem readersAgree {F V : Type*} (fromReader : Bytes → Except Text F)
    (decode : Bytes → Except Text V) (chunks : List Bytes) :
    ReadersAgree fromReader decode chunks (classify chunks.flatten) := by
  cases h : classify chunks.flatten with
  | oversized len =>
      exact ⟨readFrame_oversized fromReader h, next_oversized fromReader h,
        Sdk.readFrame_oversized decode h⟩
  | incomplete =>
      exact ⟨readFrame_incomplete fromReader h, next_incomplete fromReader h,
        Sdk.readFrame_incomplete decode h⟩
  | frame payload rest =>
      exact ⟨readFrame_frame fromReader h, next_frame fromReader h, Sdk.readFrame_frame decode h⟩

/-- What the Rust client copies to the local service. -/
theorem forwardStream_of_frame {fromReader : Bytes → Except Text DataStreamHeader}
    {ingress : Text → Option Text} {connect : Text → Bool} {chunks : List Bytes}
    {payload rest : Bytes} {header : DataStreamHeader} {addr : Text}
    (h : classify chunks.flatten = .frame payload rest) (hheader : fromReader payload = .ok header)
    (haddr : ingress header.hostname = some addr) (hconnect : connect addr = true) :
    ∃ writes, forwardStream fromReader ingress connect chunks = some (addr, writes) ∧
      writes.flatten = rest := by
  obtain ⟨left, hread, hleft⟩ := readFrame_frame fromReader h
  rw [hheader] at hread
  refine ⟨left, ?_, hleft⟩
  rw [forwardStream, hread]
  simp [Except.mapError, haddr, hconnect]

/-- What the TypeScript client writes to the local service. -/
theorem Sdk.handleDataStream_of_frame {decode : Bytes → Except Text DataStreamHeader}
    {ingress : Text → Option Text} {connect : Text → Bool} {chunks : List Bytes}
    {payload rest : Bytes} {header : DataStreamHeader} {addr : Text}
    (h : classify chunks.flatten = .frame payload rest) (hheader : decode payload = .ok header)
    (haddr : ingress header.hostname = some addr) (hne : addr ≠ []) (hconnect : connect addr = true) :
    ∃ writes, Sdk.handleDataStream decode ingress connect chunks = some (addr, writes) ∧
      writes.flatten = rest := by
  obtain ⟨leftover, left, hread, hrest⟩ := Sdk.readFrame_frame decode h
  rw [hheader] at hread
  refine ⟨(if 0 < leftover.length then [leftover] else []) ++ left, ?_, ?_⟩
  · rw [Sdk.handleDataStream, hread]
    simp [Except.mapError, Except.map, haddr, hconnect, hne]
  · rw [← hrest, List.flatten_append]
    congr 1
    -- an empty leftover is not written, and nothing is missing for it
    split_ifs with hlen
    · exact List.flatten_singleton
    · rw [List.length_pos_iff, not_not] at hlen
      rw [hlen]
      rfl

/-- **The three frame readers agree.**  However a string of bytes is cut into chunks, they classify it
in the same way and keep every byte behind the frame; so both clients pass on to the local service
exactly the bytes behind the header. -/
theorem frame_readers_agree {F V : Type*} (fromReader : Bytes → Except Text F)
    (decode : Bytes → Except Text V) (chunks : List Bytes) :
    ReadersAgree fromReader decode chunks (classify chunks.flatten) ∧
    ∀ (clientCbor sdkCbor : Bytes → Except Text DataStreamHeader) (ingress : Text → Option Text)
      (connect : Text → Bool) (payload rest : Bytes) (header : DataStreamHeader) (addr : Text),
      classify chunks.flatten = .frame payload rest →
      clientCbor payload = .ok header → sdkCbor payload = .ok header →
      ingress header.hostname = some addr → addr ≠ [] → connect addr = true →
      (∃ writes, forwardStream clientCbor ingress connect chunks = some (addr, writes) ∧
        writes.flatten = rest) ∧
      ∃ writes, Sdk.handleDataStream sdkCbor ingress connect chunks = some (addr, writes) ∧
        writes.flatten = rest := by
  refine ⟨readersAgree fromReader decode chunks, ?_⟩
  intro clientCbor sdkCbor ingress connect payload rest header addr h hclient hsdk haddr hne hconnect
  exact ⟨forwardStream_of_frame h hclient haddr hconnect,
    Sdk.handleDataStream_of_frame h hsdk haddr hne hconnect⟩

/-- The header of a stream for `a` from one peer. -/
def oneHeader : DataStreamHeader := ⟨['a'], "192.0.2.1:4433".toList, .passthrough⟩

/-- Its payload. -/
def onePayload : Bytes :=
  0xa3 :: cborText "hostname".toList ++ cborText ['a'] ++ cborText "peer_addr".toList ++
    cborText "192.0.2.1:4433".toList ++ cborText "mode".toList ++ cborText "passthrough".toList

/-- A CBOR library that knows one header. -/
def oneCbor : Cbor DataStreamHeader := .ofTable [(oneHeader, onePayload)] (by decide)

/-- A header in two chunks, with the first of the raw bytes in the second. -/
theorem frame_readers_agree_overread :
    ∃ writes, Sdk.handleDataStream oneCbor.fromReader (fun _ => some ['l']) (fun _ => true)
        [[0, 0, 0], 54 :: onePayload ++ [22, 3], [1]] = some (['l'], writes) ∧
      writes.flatten = [22, 3, 1] := by
  have hagree := frame_readers_agree oneCbor.fromReader oneCbor.fromReader
    [[0, 0, 0], 54 :: onePayload ++ [22, 3], [1]]
  exact (hagree.2 oneCbor.fromReader oneCbor.fromReader (fun _ => some ['l']) (fun _ => true) onePayload [22, 3, 1]
    oneHeader ['l'] (by decide) rfl rfl rfl (by decide) rfl).2

end Tuyau
