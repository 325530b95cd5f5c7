import Tuyau.Relay
import Tuyau.Replay

/-! # Copying a connection whose first bytes are given again

`PrefixedStream` as the source of a copy.  The bytes of a connection that were read before the copy began
are given to it once more, and only after the last of them is the connection read again.  To the copy this is
a connection of which nothing was read yet: `view` is that link, and `copyStep_view` says that every step of a
copy from the two is one from it. -/

namespace Tuyau

open AsciiText Relay

/-- The size of the buffer of `tokio::io::copy`. -/
def copyCapacity : ℕ := 8 * 1024

/-- `PrefixedStream` over a connection: the first bytes read from `raw` are given once more, and only after
the last of them is `raw` read again. -/
structure ReplayedLink where
  raw : Link UInt8
  prefixBytes : Bytes
  consumed : ℕ
  consumed_le : consumed ≤ prefixBytes.length
  replayed : prefixBytes <+: raw.read
  first : consumed < prefixBytes.length → raw.read = prefixBytes

namespace ReplayedLink

/-- All that was read of a connection so far is to be given again. -/
def of (raw : Link UInt8) : ReplayedLink where
  raw
  prefixBytes := raw.read
  consumed := 0
  consumed_le := Nat.zero_le _
  replayed := List.prefix_rfl
  first _ := rfl

variable (p : ReplayedLink)

def write (bytes : Bytes) : ReplayedLink := { p with raw := p.raw.write bytes }

def finish : ReplayedLink := { p with raw := p.raw.finish }

def cut : ReplayedLink := { p with raw := p.raw.cut }

def hold (full : Bool) : ReplayedLink := { p with raw := p.raw.hold full }

/-- Part of the prefix is still to be given. -/
def Replaying : Prop := p.consumed < p.prefixBytes.length

instance : Decidable p.Replaying := inferInstanceAs (Decidable (_ < _))

/-- What was given to the reader so far. -/
def given : Bytes := p.prefixBytes.take p.consumed ++ p.raw.read.drop p.prefixBytes.length

variable {p} in
theorem given_of_replaying (h : p.Replaying) : p.given = p.raw.read.take p.consumed := by
  rw [given, p.first h, List.drop_length, List.append_nil]

variable {p} in
theorem length_given_of_replaying (h : p.Replaying) : p.given.length = p.consumed := by
  rw [given_of_replaying h, p.first h, List.length_take_of_le p.consumed_le]

variable {p} in
theorem given_of_not_replaying (h : ¬ p.Replaying) : p.given = p.raw.read := by
  obtain ⟨rest, hrest⟩ := p.replayed
  rw [given, List.take_of_length_le (Nat.not_lt.mp h), ← hrest, List.drop_left]

theorem given_isPrefix : p.given <+: p.raw.read := by
  by_cases h : p.Replaying
  · rw [given_of_replaying h]
    exact List.take_prefix _ _
  · rw [given_of_not_replaying h]

/-- The connection as its reader sees it. -/
def view : Link UInt8 where
  written := p.raw.written
  read := p.given
  fin := p.raw.fin
  broken := p.raw.broken
  full := p.raw.full
  fifo := p.given_isPrefix.trans p.raw.fifo

/-- `n` bytes are read: of the prefix while there is some left, and then of the connection. -/
def take (n : ℕ) : ReplayedLink :=
  if h : p.Replaying then
    { p with
      consumed := min (p.consumed + n) p.prefixBytes.length
      consumed_le := Nat.min_le_right _ _
      first := fun _ => p.first h }
  else
    { p with
      raw := p.raw.take n
      replayed := by
        rw [Link.read_take]
        exact p.replayed.trans (List.prefix_append _ _)
      first := fun h' => absurd h' h }

/-- One step of a copy from the connection.  While it gives the prefix a read gets as much of that as there
is room for, and cannot fail. -/
def copyStep (c : Copy UInt8) (dst : Link UInt8) (ev : CopyEvent) :
    Option (ReplayedLink × Copy UInt8 × Link UInt8) :=
  match c, ev with
  | .running b, .read n =>
      if p.Replaying → n = min (p.prefixBytes.length - p.consumed) (copyCapacity - b.buf.length) then
        (Relay.copyStep copyCapacity p.view c dst ev).map fun r => (p.take n, r.2)
      else none
  | c, .readError =>
      if p.Replaying then none
      else (Relay.copyStep copyCapacity p.view c dst .readError).map fun r => (p, r.2)
  | c, ev => (Relay.copyStep copyCapacity p.view c dst ev).map fun r => (p, r.2)

theorem view_of (raw : Link UInt8) :
    (of raw).view = ⟨raw.written, [], raw.fin, raw.broken, raw.full, List.nil_prefix⟩ := by
  refine Link.ext rfl ?_ rfl rfl rfl
  change raw.read.take 0 ++ raw.read.drop raw.read.length = []
  rw [List.take_zero, List.drop_length, List.append_nil]

section

variable {p} {n : ℕ}

/-- What is left of the prefix is still to be read. -/
theorem le_queue_view (h : p.Replaying) : p.prefixBytes.length - p.consumed ≤ p.view.queue.length := by
  have hwritten : p.prefixBytes.length ≤ p.raw.written.length := (p.replayed.trans p.raw.fifo).length_le
  change _ ≤ (p.raw.written.drop p.given.length).length
  rw [List.length_drop, length_given_of_replaying h]
  omega

/-- A read that does not cross the end of the prefix is one of the connection as it is seen. -/
theorem view_take (h : p.Replaying → n ≤ p.prefixBytes.length - p.consumed) :
    (p.take n).view = p.view.take n := by
  have hread : (p.take n).view.read = (p.view.take n).read := by
    change (p.take n).given = p.raw.written.take (p.given.length + n)
    by_cases hre : p.Replaying
    · have hle : p.consumed + n ≤ p.prefixBytes.length := by
        have := h hre
        have := p.consumed_le
        omega
      obtain ⟨rest, hrest⟩ := p.replayed.trans p.raw.fifo
      rw [length_given_of_replaying hre, ← hrest, List.take_append_of_le_length hle, take, dif_pos hre, given]
      dsimp only
      rw [Nat.min_eq_left hle, p.first hre, List.drop_length, List.append_nil]
    · have hafter : ¬ (p.take n).Replaying := by
        rw [take, dif_neg hre]
        exact hre
      rw [given_of_not_replaying hafter, given_of_not_replaying hre, take, dif_neg hre]
      rfl
  refine Link.ext ?_ hread ?_ ?_ ?_ <;>
  · by_cases hre : p.Replaying
    · rw [take, dif_pos hre]
      rfl
    · rw [take, dif_neg hre]
      rfl

variable {p' : ReplayedLink} {c c' : Copy UInt8} {dst dst' : Link UInt8} {ev : CopyEvent}

/-- A copy from the connection is one from the connection as it is seen. -/
theorem copyStep_view (h : p.copyStep c dst ev = some (p', c', dst')) :
    Relay.copyStep copyCapacity p.view c dst ev = some (p'.view, c', dst') := by
  -- all events but a read leave the connection as it is
  have hother : (∀ n, ev ≠ .read n) →
      (Relay.copyStep copyCapacity p.view c dst ev).map (fun r => (p, r.2)) = some (p', c', dst') →
      Relay.copyStep copyCapacity p.view c dst ev = some (p'.view, c', dst') := by
    intro hev h
    obtain ⟨⟨src', r⟩, hstep, hr⟩ := Option.map_eq_some_iff.mp h
    cases hr
    rw [hstep, copyStep_src_of_not_read hev hstep]
  cases c with
  | ended ok => cases ev <;> simp [copyStep, Relay.copyStep] at h
  | running b =>
      cases ev with
      | read n =>
          rw [copyStep] at h
          obtain ⟨hroom, h⟩ := Option.ite_none_right_eq_some.mp h
          obtain ⟨⟨src', r⟩, hstep, hr⟩ := Option.map_eq_some_iff.mp h
          cases hr
          have hsrc : src' = p.view.take n := by
            obtain ⟨_, h⟩ := Option.ite_none_right_eq_some.mp hstep
            exact (congrArg Prod.fst (Option.some.inj h)).symm
          have hle : p.Replaying → n ≤ p.prefixBytes.length - p.consumed :=
            fun hre => (hroom hre).trans_le (Nat.min_le_left _ _)
          rw [hstep, view_take hle, hsrc]
      | readError =>
          rw [copyStep] at h
          obtain ⟨-, h⟩ := Option.ite_none_left_eq_some.mp h
          exact hother (by simp) h
      | eof => exact hother (by simp) h
      | write n => exact hother (by simp) h
      | writeError => exact hother (by simp) h
      | flush => exact hother (by simp) h

theorem prefixBytes_copyStep (h : p.copyStep c dst ev = some (p', c', dst')) :
    p'.prefixBytes = p.prefixBytes := by
  have hother : ∀ r : Option (Link UInt8 × Copy UInt8 × Link UInt8),
      r.map (fun r => (p, r.2)) = some (p', c', dst') → p'.prefixBytes = p.prefixBytes := by
    intro r h
    obtain ⟨r, -, hr⟩ := Option.map_eq_some_iff.mp h
    obtain ⟨rfl, -⟩ := Prod.mk.inj hr
    rfl
  cases c with
  | ended ok => cases ev <;> simp [copyStep, Relay.copyStep] at h
  | running b =>
      cases ev with
      | read n =>
          rw [copyStep] at h
          obtain ⟨-, h⟩ := Option.ite_none_right_eq_some.mp h
          obtain ⟨r, -, hr⟩ := Option.map_eq_some_iff.mp h
          obtain ⟨rfl, -⟩ := Prod.mk.inj hr
          rw [take]
          split_ifs <;> rfl
      | readError =>
          rw [copyStep] at h
          obtain ⟨-, h⟩ := Option.ite_none_left_eq_some.mp h
          exact hother _ h
      | eof => exact hother _ h
      | write n => exact hother _ h
      | writeError => exact hother _ h
      | flush => exact hother _ h

/-- While there is something to do, reading it as the prefix allows is possible. -/
theorem exists_copyStep (h : (Relay.copyStep copyCapacity p.view c dst ev).isSome)
    (hkind : ev ∈ CopyEvent.plain) :
    ∃ ev, (p.copyStep c dst ev).isSome := by
  cases c with
  | ended ok => simp [Relay.copyStep] at h
  | running b =>
      simp only [CopyEvent.plain, List.mem_cons, List.not_mem_nil, or_false] at hkind
      rcases hkind with rfl | rfl | rfl | rfl
      · by_cases hre : p.Replaying
        · -- a read of the prefix takes as much of it as there is room for
          have hguard : b.readDone = false ∧ b.buf.length + 1 ≤ copyCapacity ∧
              1 ≤ p.view.queue.length := by
            simpa [Relay.copyStep] using h
          have hleft := le_queue_view hre
          have hpos : 0 < p.prefixBytes.length - p.consumed := Nat.sub_pos_of_lt hre
          refine ⟨.read (min (p.prefixBytes.length - p.consumed) (copyCapacity - b.buf.length)), ?_⟩
          rw [copyStep, if_pos fun _ => rfl, Option.isSome_map, Relay.copyStep, if_pos]
          · rfl
          · refine ⟨hguard.1, ?_, ?_, ?_⟩ <;> omega
        · refine ⟨.read 1, ?_⟩
          rw [copyStep, if_pos fun h => absurd h hre, Option.isSome_map]
          exact h
      · exact ⟨.eof, Option.isSome_map.trans h⟩
      · exact ⟨.write 1, Option.isSome_map.trans h⟩
      · exact ⟨.flush, Option.isSome_map.trans h⟩

end

end ReplayedLink

end Tuyau
