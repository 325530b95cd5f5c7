import Tuyau.Replay

/-! # Counting the bytes of a public connection

A public connection is wrapped twice.  `Metered` passes every poll on to the stream it wraps and counts
the bytes that were read and written, for the line that is logged when the connection is closed; and
`PrefixedStream`, outside of it, gives the ClientHello once more before it reads on, and passes writes on.
A stream is its poll functions at a type of states, so that both wrappers are maps of streams.

The main result is `meter_counts_once`: whatever the stream inside does, both wrappers together answer
every sequence of polls as the outer one does alone, and at every moment the meter has counted the bytes
taken off the connection, those of the ClientHello once although they were given twice, and the bytes it
took, modulo the width of the counters. -/

namespace Tuyau

open AsciiText

/-- What a poll gives: nothing yet, an error, or a value. -/
inductive Poll (β : Type*) where
  | pending
  | failed (message : Text)
  | ready (value : β)
deriving DecidableEq

/-- `AsyncRead` and `AsyncWrite` at a type of states.  A read has room for a number of bytes and gives
those it put there. -/
structure AsyncStream (σ : Type*) where
  pollRead : σ → ℕ → Poll Bytes × σ
  pollWrite : σ → Bytes → Poll ℕ × σ
  pollWriteVectored : σ → List Bytes → Poll ℕ × σ
  isWriteVectored : σ → Bool
  pollFlush : σ → Poll Unit × σ
  pollShutdown : σ → Poll Unit × σ

/-! ### The two wrappers -/

/-- The bytes that a public connection read from its client and wrote to it. -/
structure Meter where
  read : UInt64
  written : UInt64
deriving DecidableEq

namespace Meter

def new : Meter := ⟨0, 0⟩

def addRead (m : Meter) : Poll Bytes → Meter
  | .ready bytes => { m with read := m.read + UInt64.ofNat bytes.length }
  | _ => m

def addWritten (m : Meter) : Poll ℕ → Meter
  | .ready count => { m with written := m.written + UInt64.ofNat count }
  | _ => m

end Meter

/-- A stream that adds its reads and writes to a meter. -/
structure Metered (σ : Type*) where
  inner : σ
  meter : Meter

/-- A stream with bytes to be read before it. -/
structure Prefixed (σ : Type*) where
  prefixBytes : Bytes
  consumed : ℕ
  inner : σ

namespace AsyncStream

variable {σ : Type*} (s : AsyncStream σ)

def metered : AsyncStream (Metered σ) where
  pollRead m room :=
    let poll := s.pollRead m.inner room
    (poll.1, ⟨poll.2, m.meter.addRead poll.1⟩)
  pollWrite m buf :=
    let poll := s.pollWrite m.inner buf
    (poll.1, ⟨poll.2, m.meter.addWritten poll.1⟩)
  pollWriteVectored m bufs :=
    let poll := s.pollWriteVectored m.inner bufs
    (poll.1, ⟨poll.2, m.meter.addWritten poll.1⟩)
  isWriteVectored m := s.isWriteVectored m.inner
  pollFlush m :=
    let poll := s.pollFlush m.inner
    (poll.1, { m with inner := poll.2 })
  pollShutdown m :=
    let poll := s.pollShutdown m.inner
    (poll.1, { m with inner := poll.2 })

/-- Vectored writes are left as the trait has them: the first buffer that is not empty is written. -/
def prefixed : AsyncStream (Prefixed σ) where
  pollRead p room :=
    if p.consumed < p.prefixBytes.length then
      let remaining := p.prefixBytes.drop p.consumed
      let take := min remaining.length room
      (.ready (remaining.take take), { p with consumed := p.consumed + take })
    else
      let poll := s.pollRead p.inner room
      (poll.1, { p with inner := poll.2 })
  pollWrite p buf :=
    let poll := s.pollWrite p.inner buf
    (poll.1, { p with inner := poll.2 })
  pollWriteVectored p bufs :=
    let poll := s.pollWrite p.inner ((bufs.find? fun buf => !buf.isEmpty).getD [])
    (poll.1, { p with inner := poll.2 })
  isWriteVectored _ := false
  pollFlush p :=
    let poll := s.pollFlush p.inner
    (poll.1, { p with inner := poll.2 })
  pollShutdown p :=
    let poll := s.pollShutdown p.inner
    (poll.1, { p with inner := poll.2 })

end AsyncStream

/-! ### Sequences of polls -/

inductive Call where
  | read (room : ℕ)
  | write (buf : Bytes)
  | writeVectored (bufs : List Bytes)
  | flush
  | shutdown
deriving DecidableEq

inductive Polled where
  | read (poll : Poll Bytes)
  | wrote (poll : Poll ℕ)
  | done (poll : Poll Unit)
deriving DecidableEq

namespace Polled

/-- The bytes an answer gives to the reader. -/
def bytes : Polled → Bytes
  | read (.ready bytes) => bytes
  | _ => []

/-- The number of bytes an answer says were written. -/
def count : Polled → ℕ
  | wrote (.ready count) => count
  | _ => 0

end Polled

namespace AsyncStream

variable {σ : Type*} (s : AsyncStream σ)

def call (x : σ) : Call → Polled × σ
  | .read room => ((s.pollRead x room).map .read id)
  | .write buf => ((s.pollWrite x buf).map .wrote id)
  | .writeVectored bufs => ((s.pollWriteVectored x bufs).map .wrote id)
  | .flush => ((s.pollFlush x).map .done id)
  | .shutdown => ((s.pollShutdown x).map .done id)

/-- The answers to calls one after another, and the stream after them. -/
def calls (x : σ) : List Call → List Polled × σ
  | [] => ([], x)
  | c :: cs =>
      let first := s.call x c
      let later := calls first.2 cs
      (first.1 :: later.1, later.2)

/-- The bytes a list of answers gives to the reader. -/
def given (answers : List Polled) : Bytes := answers.flatMap Polled.bytes

/-- The number of bytes a list of answers says were written. -/
def writtenCount (answers : List Polled) : ℕ := (answers.map Polled.count).sum

end AsyncStream

open AsyncStream

/-! ### What a wrapper does with a call -/

namespace Meter

/-- The meter after an answer of the stream inside. -/
def add (m : Meter) (answer : Polled) : Meter :=
  ⟨m.read + UInt64.ofNat answer.bytes.length, m.written + UInt64.ofNat answer.count⟩

theorem addRead_eq (m : Meter) (poll : Poll Bytes) : m.addRead poll = m.add (.read poll) := by
  cases poll <;> simp [addRead, add, Polled.bytes, Polled.count]

theorem addWritten_eq (m : Meter) (poll : Poll ℕ) : m.addWritten poll = m.add (.wrote poll) := by
  cases poll <;> simp [addWritten, add, Polled.bytes, Polled.count]

theorem eq_add_done (m : Meter) (poll : Poll Unit) : m = m.add (.done poll) := by
  simp [add, Polled.bytes, Polled.count]

end Meter

section

variable {σ : Type*} (s : AsyncStream σ)

/-- A metered stream answers as the stream inside, and counts the answer. -/
theorem metered_call (m : Metered σ) (c : Call) :
    s.metered.call m c = ((s.call m.inner c).1, ⟨(s.call m.inner c).2, m.meter.add (s.call m.inner c).1⟩) := by
  cases c with
  | read room => simp [call, metered, Meter.addRead_eq]
  | write buf => simp [call, metered, Meter.addWritten_eq]
  | writeVectored bufs => simp [call, metered, Meter.addWritten_eq]
  | flush => simp [call, metered, ← Meter.eq_add_done]
  | shutdown => simp [call, metered, ← Meter.eq_add_done]

/-- The call that a prefixed stream passes on, if it does not answer from its prefix. -/
def Prefixed.forwarded (p : Prefixed σ) : Call → Option Call
  | .read room => if p.consumed < p.prefixBytes.length then none else some (.read room)
  | .writeVectored bufs => some (.write ((bufs.find? fun buf => !buf.isEmpty).getD []))
  | c => some c

variable {s} {p : Prefixed σ} {c c' : Call}

theorem prefixed_call_of_forwarded (h : p.forwarded c = some c') :
    s.prefixed.call p c = ((s.call p.inner c').1, { p with inner := (s.call p.inner c').2 }) := by
  cases c with
  | read room =>
      rw [Prefixed.forwarded] at h
      split_ifs at h with hreplay
      cases h
      simp [call, prefixed, hreplay]
  | write buf => cases h; rfl
  | writeVectored bufs => cases h; rfl
  | flush => cases h; rfl
  | shutdown => cases h; rfl

/-- How much of its prefix a prefixed stream gives at a call. -/
def Prefixed.next (p : Prefixed σ) : Call → ℕ
  | .read room => min (p.prefixBytes.drop p.consumed).length room
  | _ => 0

theorem consumed_add_next_le (p : Prefixed σ) (c : Call) (hle : p.consumed ≤ p.prefixBytes.length) :
    p.consumed + p.next c ≤ p.prefixBytes.length := by
  cases c with
  | read room =>
      rw [Prefixed.next, List.length_drop]
      omega
  | _ => exact hle

/-- What is answered from the prefix is the next part of it, and the stream inside is not asked. -/
theorem prefixed_call_of_replayed (h : p.forwarded c = none) :
    s.prefixed.call p c = (.read (.ready ((p.prefixBytes.drop p.consumed).take (p.next c))),
      { p with consumed := p.consumed + p.next c }) := by
  cases c with
  | read room =>
      rw [Prefixed.forwarded] at h
      split_ifs at h with hreplay
      simp [call, prefixed, hreplay, Prefixed.next]
  | write buf => cases h
  | writeVectored bufs => cases h
  | flush => cases h
  | shutdown => cases h

/-- While there is prefix left, what the stream inside answers gives the reader nothing. -/
theorem bytes_call_of_forwarded {τ : Type*} (h : p.forwarded c = some c')
    (hleft : p.consumed < p.prefixBytes.length) (inside : AsyncStream τ) (x : τ) :
    (inside.call x c').1.bytes = [] := by
  cases c with
  | read room => simp [Prefixed.forwarded, hleft] at h
  | write buf => cases h; rfl
  | writeVectored bufs => cases h; rfl
  | flush => cases h; rfl
  | shutdown => cases h; rfl

end

/-! ### Whole runs -/

section

variable {σ : Type*} (s : AsyncStream σ)

/-- The meter after answers of the stream inside, of which it read `bytes`. -/
def Meter.after (m : Meter) (bytes : Bytes) (answers : List Polled) : Meter :=
  ⟨m.read + UInt64.ofNat bytes.length, m.written + UInt64.ofNat (writtenCount answers)⟩

theorem Meter.after_add (m : Meter) (answer : Polled) (bytes : Bytes) (answers : List Polled) :
    (m.add answer).after bytes answers = m.after (answer.bytes ++ bytes) (answer :: answers) := by
  simp only [after, add, writtenCount, List.map_cons, List.sum_cons, List.length_append, UInt64.ofNat_add,
    add_assoc]

theorem Meter.after_after (m : Meter) (bytes bytes' : Bytes) (answers answers' : List Polled) :
    (m.after bytes answers).after bytes' answers' = m.after (bytes ++ bytes') (answers ++ answers') := by
  simp only [after, writtenCount, List.map_append, List.sum_append, List.length_append, UInt64.ofNat_add,
    add_assoc]

theorem metered_calls (m : Metered σ) (cs : List Call) :
    s.metered.calls m cs = ((s.calls m.inner cs).1,
      ⟨(s.calls m.inner cs).2, m.meter.after (given (s.calls m.inner cs).1) (s.calls m.inner cs).1⟩) := by
  induction cs generalizing m with
  | nil => simp [calls, Meter.after, given, writtenCount]
  | cons c cs ih =>
      simp only [calls, metered_call, ih, given, List.flatMap_cons, Meter.after_add]

/-- A prefixed stream over a metered one, without the meter. -/
def Prefixed.bare (p : Prefixed (Metered σ)) : Prefixed σ := ⟨p.prefixBytes, p.consumed, p.inner.inner⟩

theorem bare_call (p : Prefixed (Metered σ)) (c : Call) :
    s.prefixed.call p.bare c = ((s.metered.prefixed.call p c).1, (s.metered.prefixed.call p c).2.bare) := by
  cases hpass : p.forwarded c with
  | none =>
      have hbare : p.bare.forwarded c = none := hpass
      rw [prefixed_call_of_replayed hpass, prefixed_call_of_replayed hbare]
      rfl
  | some c' =>
      have hbare : p.bare.forwarded c = some c' := hpass
      rw [prefixed_call_of_forwarded hpass, prefixed_call_of_forwarded hbare, metered_call]
      rfl

/-- The meter cannot be told from outside. -/
theorem bare_calls (p : Prefixed (Metered σ)) (cs : List Call) :
    s.prefixed.calls p.bare cs =
      ((s.metered.prefixed.calls p cs).1, (s.metered.prefixed.calls p cs).2.bare) := by
  induction cs generalizing p with
  | nil => rfl
  | cons c cs ih => simp only [calls, bare_call, ih]

/-- The bytes a prefixed stream gives in a run are the next of the prefix and, only after the last of these,
bytes of the stream inside; a meter there counts those. -/
theorem prefixed_metered_calls (p : Prefixed (Metered σ)) (cs : List Call)
    (hle : p.consumed ≤ p.prefixBytes.length) :
    ∃ n rest, p.consumed + n ≤ p.prefixBytes.length ∧
      (rest ≠ [] → p.consumed + n = p.prefixBytes.length) ∧
      given (s.metered.prefixed.calls p cs).1 = (p.prefixBytes.drop p.consumed).take n ++ rest ∧
      (s.metered.prefixed.calls p cs).2.consumed = p.consumed + n ∧
      (s.metered.prefixed.calls p cs).2.inner.meter =
        p.inner.meter.after rest (s.metered.prefixed.calls p cs).1 := by
  induction cs generalizing p with
  | nil => exact ⟨0, [], hle, fun h => absurd rfl h, rfl, rfl, by simp [calls, Meter.after, writtenCount]⟩
  | cons c cs ih =>
      cases hpass : p.forwarded c with
      | none =>
          obtain ⟨n, rest, hn, hrest, hgiven, hconsumed, hmeter⟩ :=
            ih { p with consumed := p.consumed + p.next c } (consumed_add_next_le p c hle)
          refine ⟨p.next c + n, rest, ?_, ?_, ?_, ?_, ?_⟩
          · rw [← add_assoc]
            exact hn
          · rw [← add_assoc]
            exact hrest
          · simp only [calls, prefixed_call_of_replayed hpass, given, List.flatMap_cons, Polled.bytes]
            rw [← given, hgiven, List.take_add, List.drop_drop, List.append_assoc]
          · simp only [calls, prefixed_call_of_replayed hpass]
            rw [hconsumed, add_assoc]
          · simp only [calls, prefixed_call_of_replayed hpass]
            rw [hmeter]
            simp [Meter.after, writtenCount, Polled.count]
      | some c' =>
          obtain ⟨n, rest, hn, hrest, hgiven, hconsumed, hmeter⟩ :=
            ih { p with inner := (s.metered.call p.inner c').2 } hle
          -- the stream inside is read only when nothing of the prefix is left
          have hbytes : p.consumed < p.prefixBytes.length → (s.call p.inner.inner c').1.bytes = [] :=
            fun hleft => bytes_call_of_forwarded hpass hleft s _
          rw [metered_call] at hn hrest hgiven hconsumed hmeter
          refine ⟨n, (s.call p.inner.inner c').1.bytes ++ rest, hn, ?_, ?_, ?_, ?_⟩
          · intro hne
            by_contra hlt
            have hdone : rest = [] := not_not.mp fun h => hlt (hrest h)
            exact hne (by rw [hbytes (by dsimp only at hn; omega), hdone, List.nil_append])
          · simp only [calls, prefixed_call_of_forwarded hpass, given, List.flatMap_cons, metered_call]
            rw [← given, hgiven]
            rcases lt_or_ge p.consumed p.prefixBytes.length with hleft | hdone
            · rw [hbytes hleft, List.nil_append, List.nil_append]
            · rw [List.drop_of_length_le hdone, List.take_nil, List.nil_append, List.nil_append]
          · simp only [calls, prefixed_call_of_forwarded hpass, metered_call]
            exact hconsumed
          · simp only [calls, prefixed_call_of_forwarded hpass, metered_call]
            rw [hmeter, Meter.after_add]

/-- **The meter of a public connection counts every byte once, and cannot be told from outside.**  Let any
polls of the metered connection read a ClientHello, and any later ones go through the stream that gives it
back.  All answers are those without a meter.  What was read of the connection is the ClientHello and `rest`:
the reader of the second stream was given that from its start, and the meter counts its bytes, the replayed
ones once; what it counts as written is what the connection took. -/
theorem meter_counts_once (x : σ) (polls later : List Call) :
    let first := s.metered.calls ⟨x, Meter.new⟩ polls
    let hello := given first.1
    let second := s.metered.prefixed.calls ⟨hello, 0, first.2⟩ later
    first.1 = (s.calls x polls).1 ∧
      second.1 = (s.prefixed.calls ⟨hello, 0, (s.calls x polls).2⟩ later).1 ∧
      ∃ rest, given second.1 = hello.take second.2.consumed ++ rest ∧
        (rest ≠ [] → second.2.consumed = hello.length) ∧
        second.2.inner.meter.read = UInt64.ofNat (hello ++ rest).length ∧
        second.2.inner.meter.written = UInt64.ofNat (writtenCount (first.1 ++ second.1)) := by
  dsimp only
  rw [metered_calls]
  generalize s.calls x polls = plain
  have hbare := bare_calls s ⟨given plain.1, 0, ⟨plain.2, Meter.new.after (given plain.1) plain.1⟩⟩ later
  obtain ⟨n, rest, -, hrest, hgiven, hconsumed, hmeter⟩ := prefixed_metered_calls s
    ⟨given plain.1, 0, ⟨plain.2, Meter.new.after (given plain.1) plain.1⟩⟩ later (Nat.zero_le _)
  refine ⟨rfl, (congrArg Prod.fst hbare).symm, rest, ?_, ?_, ?_, ?_⟩
  · rw [hgiven, hconsumed, zero_add, List.drop_zero]
  · rw [hconsumed]
    exact hrest
  · rw [hmeter, Meter.after_after]
    exact zero_add _
  · rw [hmeter, Meter.after_after]
    exact zero_add _

end

end Tuyau
