import Mathlib.Data.List.Induction

/-! # Decoding a stream from a growing buffer

A `Decoder` looks at a buffer and yields a value together with what is left of the buffer, or asks for
more, or fails; to yield a value it has to use something up.  `drain` calls it until it asks for more
or fails, `receive` does so after each chunk that arrives, and `next` appends chunks until there is a
first answer that does not ask for more.

Where each value of a list has an encoding that the decoder takes off the front of any buffer and that
it waits for as long as it is not complete (`Decodes`), the decoder finds exactly these values in the
concatenation of the encodings, however it is cut into chunks: at every moment the values yielded are
those whose encodings have arrived in full (`progress_run`, `Progress.lt_length_iff`).  And where more
at the end of a buffer changes no answer that was given (`Stable`), `next` answers as the decoder does
on the whole stream, whatever the chunks (`exists_next`). -/

namespace StreamDecoder

variable {α β ε : Type*}

/-- A decoder of values `α` from buffers of `β`; it finds nothing in an empty one. -/
structure Decoder (α β ε : Type*) where
  decode : List β → Except ε (Option α) × List β
  decode_nil : decode [] = (.ok none, [])
  shrinks : ∀ {src a rest}, decode src = (.ok (some a), rest) → rest.length < src.length

/-- The values yielded so far, the error that ended it, and the buffer. -/
structure Receiver (α β ε : Type*) where
  items : List α
  failed : Option ε
  buf : List β

namespace Decoder

variable (d : Decoder α β ε)

/-- Decode until more is asked for. -/
def drain (src : List β) : List α × Option ε × List β :=
  match h : d.decode src with
  | (.ok (some a), rest) =>
      have := d.shrinks h
      let later := drain rest
      (a :: later.1, later.2)
  | (.ok none, rest) => ([], none, rest)
  | (.error e, rest) => ([], some e, rest)
termination_by src.length

/-- A chunk arrives. -/
def receive (r : Receiver α β ε) (chunk : List β) : Receiver α β ε :=
  match r.failed with
  | some _ => r
  | none =>
      let found := d.drain (r.buf ++ chunk)
      ⟨r.items ++ found.1, found.2.1, found.2.2⟩

/-- Receive chunks one after another, with an empty buffer at first. -/
def run (chunks : List (List β)) : Receiver α β ε := chunks.foldl d.receive ⟨[], none, []⟩

/-- Append chunks to a buffer until there is an answer; with it come the buffer and the chunks that
were not needed. -/
def next : List β → List (List β) → (Except ε (Option α) × List β) × List (List β)
  | buf, [] => (d.decode buf, [])
  | buf, c :: cs =>
      match d.decode buf with
      | (.ok none, buf) => next (buf ++ c) cs
      | answer => (answer, c :: cs)

theorem drain_some {src : List β} {a : α} {rest : List β} (h : d.decode src = (.ok (some a), rest)) :
    d.drain src = (a :: (d.drain rest).1, (d.drain rest).2) := by
  rw [drain]
  split
  · next h' =>
      obtain ⟨ha, rfl⟩ := Prod.mk.inj (h.symm.trans h')
      obtain rfl := Option.some.inj (Except.ok.inj ha)
      rfl
  · next h' => simp [h] at h'
  · next h' => simp [h] at h'

theorem drain_none {src rest : List β} (h : d.decode src = (.ok none, rest)) :
    d.drain src = ([], none, rest) := by
  rw [drain]
  split
  · next h' => simp [h] at h'
  · next h' => rw [(Prod.mk.inj (h.symm.trans h')).2]
  · next h' => simp [h] at h'

variable (enc : α → List β)

/-- The decoder takes the encoding of `a` off the front of a buffer, and waits for more as long as
that is not complete. -/
structure Decodes (a : α) : Prop where
  complete : ∀ rest, d.decode (enc a ++ rest) = (.ok (some a), rest)
  waits : ∀ part, part <+: enc a → part ≠ enc a → d.decode part = (.ok none, part)

/-- The encodings of a list of values, one after another. -/
def wire (xs : List α) : List β := (xs.map enc).flatten

omit d in
@[simp] theorem wire_cons (x : α) (xs : List α) : wire enc (x :: xs) = enc x ++ wire enc xs := rfl

omit d in
theorem wire_append (xs ys : List α) : wire enc (xs ++ ys) = wire enc xs ++ wire enc ys := by
  simp only [wire, List.map_append, List.flatten_append]

/-- A buffer that is still short of the first of the values to come. -/
def Short (buf : List β) : List α → Prop
  | [] => buf = []
  | x :: _ => buf <+: enc x ∧ buf ≠ enc x

/-- What of `xs` was yielded when `got` has arrived. -/
structure Progress (xs : List α) (got : List β) (r : Receiver α β ε) : Prop where
  unfailed : r.failed = none
  rest : ∃ later, xs = r.items ++ later ∧ got = wire enc r.items ++ r.buf ∧ Short enc r.buf later

variable {d enc}

/-- On part of a wire `drain` yields the values that are complete and keeps the rest. -/
theorem drain_of_isPrefix {xs : List α} (hxs : ∀ x ∈ xs, d.Decodes enc x) {buf : List β}
    (hbuf : buf <+: wire enc xs) :
    ∃ found later rest, d.drain buf = (found, none, rest) ∧ xs = found ++ later ∧
      buf = wire enc found ++ rest ∧ Short enc rest later := by
  induction xs generalizing buf with
  | nil =>
      obtain rfl := List.prefix_nil.mp hbuf
      exact ⟨[], [], [], d.drain_none d.decode_nil, rfl, rfl, rfl⟩
  | cons x xs ih =>
      have hx := hxs x List.mem_cons_self
      rw [wire_cons] at hbuf
      by_cases harrived : enc x <+: buf
      · obtain ⟨buf, rfl⟩ := harrived
        rw [List.prefix_append_right_inj] at hbuf
        obtain ⟨found, later, rest, hdrain, rfl, rfl, hshort⟩ :=
          ih (fun y hy => hxs y (List.mem_cons_of_mem x hy)) hbuf
        refine ⟨x :: found, later, rest, ?_, rfl, ?_, hshort⟩
        · rw [d.drain_some (hx.complete _), hdrain]
        · rw [wire_cons, List.append_assoc]
      · have hordered : buf <+: enc x ∨ enc x <+: buf :=
          List.prefix_or_prefix_of_prefix hbuf (List.prefix_append _ _)
        have hpart := hordered.resolve_right harrived
        have hne : buf ≠ enc x := fun h => harrived (h ▸ List.prefix_refl _)
        exact ⟨[], x :: xs, buf, d.drain_none (hx.waits buf hpart hne), rfl, rfl, hpart, hne⟩

/-- One more chunk. -/
theorem Progress.receive {xs : List α} (hxs : ∀ x ∈ xs, d.Decodes enc x) {got chunk : List β}
    {r : Receiver α β ε} (h : Progress enc xs got r) (hgot : got ++ chunk <+: wire enc xs) :
    Progress enc xs (got ++ chunk) (d.receive r chunk) := by
  obtain ⟨later, rfl, rfl, -⟩ := h.rest
  rw [wire_append, List.append_assoc, List.prefix_append_right_inj] at hgot
  obtain ⟨found, later, rest, hdrain, rfl, hbuf, hshort⟩ :=
    drain_of_isPrefix (fun x hx => hxs x (List.mem_append_right _ hx)) hgot
  have hreceive : d.receive r chunk = ⟨r.items ++ found, none, rest⟩ := by
    rw [Decoder.receive, h.unfailed]
    simp only [hdrain]
  rw [hreceive]
  refine ⟨rfl, later, (List.append_assoc _ _ _).symm, ?_, hshort⟩
  rw [wire_append, List.append_assoc, List.append_assoc, hbuf]

/-- **Any chunks of a wire**: the decoder never fails, and keeps what it has not yet yielded. -/
theorem progress_run {xs : List α} (hxs : ∀ x ∈ xs, d.Decodes enc x) {chunks : List (List β)}
    (hchunks : chunks.flatten <+: wire enc xs) : Progress enc xs chunks.flatten (d.run chunks) := by
  induction chunks using List.reverseRecOn with
  | nil =>
      refine ⟨rfl, xs, rfl, rfl, ?_⟩
      cases xs with
      | nil => rfl
      | cons x xs =>
          refine ⟨ List.nil_prefix, fun h => ?_⟩
          -- an empty encoding would be yielded without using anything up
          have hlt := d.shrinks ((hxs x List.mem_cons_self).complete [])
          have hempty : enc x = [] := h.symm
          simp [hempty] at hlt
  | append_singleton chunks chunk ih =>
      rw [List.flatten_append, List.flatten_singleton] at hchunks ⊢
      have hbefore := ih ((List.prefix_append _ _).trans hchunks)
      rw [run, List.foldl_append]
      exact hbefore.receive hxs hchunks

/-- The values yielded are a part of the values sent, in their order. -/
theorem Progress.isPrefix {xs : List α} {got : List β} {r : Receiver α β ε}
    (h : Progress enc xs got r) : r.items <+: xs := by
  obtain ⟨later, hxs, -⟩ := h.rest
  exact ⟨later, hxs.symm⟩

/-- **A value is yielded exactly when the last of its encoding has arrived.** -/
theorem Progress.lt_length_iff {xs : List α} {got : List β} {r : Receiver α β ε}
    (h : Progress enc xs got r) {i : ℕ} (hi : i < xs.length) :
    i < r.items.length ↔ (wire enc (xs.take (i + 1))).length ≤ got.length := by
  obtain ⟨later, rfl, rfl, hshort⟩ := h.rest
  constructor
  · intro hlt
    have hsplit := congrArg (wire enc) (List.take_append_drop (i + 1) r.items)
    rw [wire_append] at hsplit
    rw [List.take_append_of_le_length (Nat.succ_le_of_lt hlt), ← hsplit]
    simp only [List.length_append, Nat.succ_eq_add_one]
    omega
  · intro hle
    by_contra hge
    cases later with
    | nil => simp at hi; omega
    | cons x later =>
        have htake : (r.items ++ x :: later).take (i + 1) =
            r.items ++ x :: later.take (i - r.items.length) := by
          rw [List.take_append, List.take_of_length_le (by omega),
            show i + 1 - r.items.length = i - r.items.length + 1 by omega, List.take_succ_cons]
        rw [htake, wire_append, wire_cons] at hle
        simp only [List.length_append] at hle
        exact hshort.2 (hshort.1.eq_of_length_le (by omega))

/-- With all of the wire arrived, all values were yielded and nothing is left. -/
theorem Progress.eq_of_wire {xs : List α} {r : Receiver α β ε} (h : Progress enc xs (wire enc xs) r) :
    r = ⟨xs, none, []⟩ := by
  obtain ⟨items, failed, buf⟩ := r
  obtain ⟨later, rfl, hwire, hshort⟩ := h.rest
  obtain rfl : failed = none := h.unfailed
  rw [wire_append] at hwire
  have hbuf := List.append_cancel_left hwire
  cases later with
  | nil =>
      obtain rfl : buf = [] := hshort
      rw [List.append_nil]
  | cons x later =>
      -- the buffer holds a whole encoding, so it is not short of it
      have hlen : (enc x).length ≤ buf.length := by
        dsimp only at hbuf
        rw [← hbuf, wire_cons, List.length_append]
        exact Nat.le_add_right _ _
      exact absurd (hshort.1.eq_of_length_le hlen) hshort.2

/-! ### The first answer -/

/-- Asking for more leaves the buffer as it is, and no other answer is changed by what follows. -/
structure Stable (d : Decoder α β ε) : Prop where
  keeps : ∀ {buf rest}, d.decode buf = (.ok none, rest) → rest = buf
  grows : ∀ {buf answer rest} (more), d.decode buf = (answer, rest) → answer ≠ .ok none →
    d.decode (buf ++ more) = (answer, rest ++ more)

/-- **Fed in chunks, a stable decoder answers as on the whole stream**; what follows is in the buffer
as far as it has arrived, and the answer is to wait only if everything has. -/
theorem exists_next (hd : d.Stable) (buf : List β) (chunks : List (List β)) :
    ∃ rest left, d.next buf chunks = (((d.decode (buf ++ chunks.flatten)).1, rest), left) ∧
      rest ++ left.flatten = (d.decode (buf ++ chunks.flatten)).2 ∧
      ((d.decode (buf ++ chunks.flatten)).1 = .ok none → left = []) := by
  induction chunks generalizing buf with
  | nil =>
      rw [List.flatten_nil, List.append_nil]
      exact ⟨(d.decode buf).2, [], rfl, List.append_nil _, fun _ => rfl⟩
  | cons c cs ih =>
      rw [next]
      split
      · next rest hnone =>
          obtain rfl := hd.keeps hnone
          rw [List.flatten_cons, ← List.append_assoc]
          exact ih (rest ++ c)
      · next hanswer =>
          rcases hdec : d.decode buf with ⟨answer, rest⟩
          have hne : answer ≠ .ok none := fun h => hanswer rest (by rw [hdec, h])
          rw [hd.grows _ hdec hne]
          exact ⟨rest, c :: cs, rfl, rfl, fun h => absurd h hne⟩

end Decoder

end StreamDecoder
