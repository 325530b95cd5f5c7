import Tuyau.Public
import Tuyau.Sni

/-! # Reading and replaying the ClientHello

To route a public connection on its SNI the listener reads the first TLS record off the stream, and
then gives the bytes back: `PrefixedStream` replays them before it goes on with the stream.  A stream is
the list of the chunks its bytes arrive in.

The main result is `passthrough_transparent`: for a stream that starts with a handshake record of at
most 16 KiB, reads of any sizes give its bytes in order and all of them in the end, wherever the chunks
are cut; any other stream is dropped with nothing forwarded. -/

namespace Tuyau

open AsciiText

/-- `MAX_RECORD_SIZE`. -/
def maxRecordSize : ℕ := 16 * 1024

/-- What `read_client_hello` fails with. -/
inductive HelloError where
  | unexpectedEof
  | notHandshake (contentType : UInt8)
  | tooLarge (recLen : ℕ)
deriving DecidableEq

/-- Read one TLS record, header and body, and leave the rest on the stream. -/
def readClientHello (stream : List Bytes) : Except HelloError (Bytes × List Bytes) :=
  match Chunks.readExact 5 stream with
  | none => .error .unexpectedEof
  | some (buf, stream) =>
      if buf.getD 0 0 ≠ 0x16 then .error (.notHandshake (buf.getD 0 0))
      else
        let recLen := BigEndian.ofBytes [buf.getD 3 0, buf.getD 4 0]
        if maxRecordSize < recLen then .error (.tooLarge recLen)
        else
          match Chunks.readExact recLen stream with
          | none => .error .unexpectedEof
          | some (rest, stream) => .ok (buf ++ rest, stream)

/-- What the first record gives the listener. -/
def ClientHello.of : Except HelloError (Bytes × List Bytes) → ClientHello
  | .error _ => .unreadable
  | .ok (hello, _) => .record (parseSni hello)

/-- A stream with bytes to be read before it. -/
structure PrefixedStream where
  prefixBytes : Bytes
  consumed : ℕ
  inner : List Bytes

namespace PrefixedStream

def new (prefixBytes : Bytes) (inner : List Bytes) : PrefixedStream := ⟨prefixBytes, 0, inner⟩

/-- One read with room for `room` bytes. -/
def pollRead (s : PrefixedStream) (room : ℕ) : Bytes × PrefixedStream :=
  if s.consumed < s.prefixBytes.length then
    let remaining := s.prefixBytes.drop s.consumed
    let take := min remaining.length room
    (remaining.take take, { s with consumed := s.consumed + take })
  else
    let read := Chunks.read room s.inner
    (read.1, { s with inner := read.2 })

/-- What reads of the given sizes give, and the stream after them. -/
def reads (s : PrefixedStream) : List ℕ → Bytes × PrefixedStream
  | [] => ([], s)
  | room :: rooms =>
      let first := s.pollRead room
      let later := first.2.reads rooms
      (first.1 ++ later.1, later.2)

/-- The bytes still to be read. -/
def unread (s : PrefixedStream) : Bytes := s.prefixBytes.drop s.consumed ++ s.inner.flatten

theorem unread_new (hello : Bytes) (inner : List Bytes) :
    (new hello inner).unread = hello ++ inner.flatten := rfl

/-- One read takes what it gives off the front of the bytes to be read. -/
theorem pollRead_append_unread (s : PrefixedStream) (room : ℕ) :
    (s.pollRead room).1 ++ (s.pollRead room).2.unread = s.unread := by
  rw [pollRead]
  split_ifs with hprefix
  · dsimp only [unread]
    rw [← List.append_assoc, ← List.drop_drop, List.take_append_drop]
  · have hdone : s.prefixBytes.drop s.consumed = [] := List.drop_of_length_le (Nat.not_lt.mp hprefix)
    dsimp only [unread]
    rw [hdone, List.nil_append, List.nil_append, Chunks.read_append]

/-- With room for something, a read gives nothing only at the end. -/
theorem pollRead_eq_nil_iff (s : PrefixedStream) {room : ℕ} (hroom : 0 < room) :
    (s.pollRead room).1 = [] ↔ s.unread = [] := by
  rw [pollRead]
  split_ifs with hprefix
  · have hrest : s.prefixBytes.drop s.consumed ≠ [] := by
      rw [ne_eq, List.drop_eq_nil_iff]
      omega
    have hlen := List.length_pos_iff.mpr hrest
    have hmin : min (s.prefixBytes.drop s.consumed).length room ≠ 0 := by omega
    simp only [unread, List.take_eq_nil_iff, List.append_eq_nil_iff, hrest, hmin, or_self, false_and]
  · have hdone : s.prefixBytes.drop s.consumed = [] := List.drop_of_length_le (Nat.not_lt.mp hprefix)
    rw [unread, hdone, List.nil_append]
    exact Chunks.read_eq_nil_iff hroom s.inner

/-- Any reads take what they give off the front of the bytes to be read. -/
theorem reads_append_unread (s : PrefixedStream) (rooms : List ℕ) :
    (s.reads rooms).1 ++ (s.reads rooms).2.unread = s.unread := by
  induction rooms generalizing s with
  | nil => rfl
  | cons room rooms ih =>
      rw [reads]
      dsimp only
      rw [List.append_assoc, ih, pollRead_append_unread]

/-- As many reads as there are bytes are enough, if each has room for one. -/
theorem reads_eq_unread (s : PrefixedStream) {rooms : List ℕ} (hpos : ∀ room ∈ rooms, 0 < room)
    (hlen : s.unread.length ≤ rooms.length) : (s.reads rooms).1 = s.unread := by
  induction rooms generalizing s with
  | nil => exact (List.length_eq_zero_iff.mp (Nat.le_zero.mp hlen)).symm
  | cons room rooms ih =>
      have hstep := s.pollRead_append_unread room
      have hprogress := s.pollRead_eq_nil_iff (hpos room List.mem_cons_self)
      have hsplit := congrArg List.length hstep
      rw [List.length_append] at hsplit
      rw [List.length_cons] at hlen
      have hrest : (s.pollRead room).2.unread.length ≤ rooms.length := by
        by_cases hend : s.unread = []
        · rw [hend, List.length_nil] at hsplit
          omega
        · have hgot := List.length_pos_iff.mpr (fun h => hend (hprogress.mp h))
          omega
      rw [reads]
      dsimp only
      rw [ih _ (fun r hr => hpos r (List.mem_cons_of_mem room hr)) hrest, hstep]

end PrefixedStream

/-! ### The first record -/

/-- The length that the header of a record says. -/
def recordLen (s : Bytes) : ℕ := BigEndian.ofBytes [s.getD 3 0, s.getD 4 0]

/-- A stream whose bytes start with a handshake record that is not too long and complete. -/
structure StartsWithHandshake (s : Bytes) : Prop where
  header : 5 ≤ s.length
  contentType : s.getD 0 0 = 0x16
  small : recordLen s ≤ maxRecordSize
  complete : 5 + recordLen s ≤ s.length

section

variable {stream : List Bytes}

theorem getD_take {s : Bytes} {i n : ℕ} (h : i < n) : (s.take n).getD i 0 = s.getD i 0 := by
  rw [List.getD_eq_getElem?_getD, List.getD_eq_getElem?_getD, List.getElem?_take_of_lt h]

/-- Reading the record of a stream that starts with one. -/
theorem readClientHello_ok (h : StartsWithHandshake stream.flatten) :
    ∃ inner, readClientHello stream =
        .ok (stream.flatten.take (5 + recordLen stream.flatten), inner) ∧
      inner.flatten = stream.flatten.drop (5 + recordLen stream.flatten) := by
  obtain ⟨later, hread, hlater⟩ := Chunks.exists_readExact h.header
  have hthere : recordLen stream.flatten ≤ later.flatten.length := by
    have := h.complete
    rw [hlater, List.length_drop]
    omega
  obtain ⟨inner, hread', hinner⟩ := Chunks.exists_readExact hthere
  refine ⟨inner, ?_, ?_⟩
  · rw [readClientHello, hread]
    simp only [getD_take (show 0 < 5 by decide), getD_take (show 3 < 5 by decide),
      getD_take (show 4 < 5 by decide)]
    rw [if_neg (not_not.mpr h.contentType), ← recordLen, if_neg (Nat.not_lt.mpr h.small), hread']
    simp only [hlater, List.take_add]
  · rw [hinner, hlater, List.drop_drop]

/-- Any other stream is refused. -/
theorem readClientHello_error (h : ¬ StartsWithHandshake stream.flatten) :
    ∃ e, readClientHello stream = .error e := by
  rw [readClientHello]
  rcases Nat.lt_or_ge stream.flatten.length 5 with hlen | hlen
  · exact ⟨_, by rw [Chunks.readExact_eq_none hlen]⟩
  obtain ⟨later, hread, hlater⟩ := Chunks.exists_readExact hlen
  rw [hread]
  simp only [getD_take (show 0 < 5 by decide), getD_take (show 3 < 5 by decide),
    getD_take (show 4 < 5 by decide)]
  rw [← recordLen]
  split_ifs with htype hsize
  · exact ⟨_, rfl⟩
  · exact ⟨_, rfl⟩
  · have hshort : later.flatten.length < recordLen stream.flatten := by
      by_contra hlong
      rw [hlater, List.length_drop] at hlong
      exact h ⟨hlen, not_not.mp htype, Nat.not_lt.mp hsize, by omega⟩
    exact ⟨_, by rw [Chunks.readExact_eq_none hshort]⟩

end

/-- **Passthrough is byte-transparent.**  Off a stream that starts with a handshake record exactly that
record is read, and reads of any sizes from the stream that replays it give the bytes of the stream in
order: what was read is always a part of them, a read that has room comes back empty only when all were
given, and enough reads give all.  Of any other stream nothing is forwarded. -/
theorem passthrough_transparent (stream : List Bytes) :
    (StartsWithHandshake stream.flatten →
      ∃ hello inner, readClientHello stream = .ok (hello, inner) ∧
        hello = stream.flatten.take (5 + recordLen stream.flatten) ∧
        inner.flatten = stream.flatten.drop (5 + recordLen stream.flatten) ∧
        ∀ rooms,
          ((PrefixedStream.new hello inner).reads rooms).1 <+: stream.flatten ∧
          (∀ room, 0 < room →
            ((((PrefixedStream.new hello inner).reads rooms).2.pollRead room).1 = [] ↔
              ((PrefixedStream.new hello inner).reads rooms).1 = stream.flatten)) ∧
          ((∀ room ∈ rooms, 0 < room) → stream.flatten.length ≤ rooms.length →
            ((PrefixedStream.new hello inner).reads rooms).1 = stream.flatten)) ∧
    (¬ StartsWithHandshake stream.flatten →
      (∃ e, readClientHello stream = .error e) ∧
      ∀ needsClientCert peer v,
        handlePublic needsClientCert peer (.of (readClientHello stream)) v = []) := by
  constructor
  · intro h
    obtain ⟨inner, hread, hinner⟩ := readClientHello_ok h
    have hall : (PrefixedStream.new (stream.flatten.take (5 + recordLen stream.flatten))
        inner).unread = stream.flatten := by
      rw [PrefixedStream.unread_new, hinner, List.take_append_drop]
    refine ⟨_, inner, hread, rfl, hinner, fun rooms => ?_⟩
    have hsplit := PrefixedStream.reads_append_unread
      (.new (stream.flatten.take (5 + recordLen stream.flatten)) inner) rooms
    rw [hall] at hsplit
    refine ⟨⟨_, hsplit⟩, fun room hroom => ?_, fun hpos hlen => ?_⟩
    · rw [PrefixedStream.pollRead_eq_nil_iff _ hroom]
      constructor
      · intro hend
        rwa [hend, List.append_nil] at hsplit
      · intro hdone
        rw [hdone] at hsplit
        exact List.append_right_eq_self.mp hsplit
    · rw [PrefixedStream.reads_eq_unread _ hpos (by rwa [hall]), hall]
  · intro h
    obtain ⟨e, he⟩ := readClientHello_error h
    refine ⟨⟨e, he⟩, fun needsClientCert peer v => ?_⟩
    rw [he]
    rfl

/-- A record cut in its header and in its body, and a stream of another type. -/
theorem passthrough_transparent_cut :
    (∃ hello inner, readClientHello [[0x16, 3, 1, 0], [2, 9], [8, 7]] = .ok (hello, inner) ∧
      ((PrefixedStream.new hello inner).reads [3, 1, 9, 2, 1, 1, 1, 1]).1 =
        [0x16, 3, 1, 0, 2, 9, 8, 7]) ∧
    ∃ e, readClientHello [[0x17, 3, 1, 0, 0]] = .error e := by
  obtain ⟨hello, inner, hread, -, -, hreads⟩ :=
    (passthrough_transparent [[0x16, 3, 1, 0], [2, 9], [8, 7]]).1
      ⟨by decide, by decide, by decide, by decide⟩
  refine ⟨⟨hello, inner, hread, (hreads _).2.2 (by decide) (by decide)⟩, ?_⟩
  refine ((passthrough_transparent [[0x17, 3, 1, 0, 0]]).2 fun h => ?_).1
  exact absurd h.contentType (by decide)

end Tuyau
