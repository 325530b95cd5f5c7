import Mathlib.Data.List.Infix
import Mathlib.Tactic.Ring
import Tuyau.Runs

/-! # Relays

A `Link` carries items in order from the party that writes it to the party that reads it; what was read
is a part of what was written, and its writer may finish it and anything may break it.  A transport has flow
control, so that at times it takes nothing and its writer has to wait.  A copy stands between two links: it
reads items into a buffer of a given capacity, writes them from there, and when it is over, with its source
at the end or after an error, it finishes the link it wrote.  A chain is a link followed by any number of such
hops.

`Sound` is what every run of a chain keeps, and it is stated hop by hop: a copy has written what it has
read up to its buffer.  From it come the three results about chains, all by induction over the hops:

* what comes out is a part of what went in, in order, whatever breaks (`Sound.written_isPrefix`);
* at a link that was finished, with no copy on the way that failed, everything has come out
  (`Sound.complete`);
* a chain that is not broken and whose source is finished is stuck before that only if nobody reads what has
  come out, or if a link takes nothing although it is empty (`Sound.goesOn`), and every action of a hop
  makes `weight` smaller (`weight_hopAt`), so that there is a bounded number of them. -/

namespace Relay

variable {α : Type*}

/-! ### Links -/

/-- A one-way transport: all that was written to it and read from it, in order, whether its writer has
finished it, whether it broke, and whether it is full, so that it takes nothing for now. -/
@[ext]
structure Link (α : Type*) where
  written : List α
  read : List α
  fin : Bool
  broken : Bool
  full : Bool
  fifo : read <+: written

namespace Link

variable (l : Link α)

def new : Link α := ⟨[], [], false, false, false, List.prefix_rfl⟩

/-- What was written and not yet read. -/
def queue : List α := l.written.drop l.read.length

/-- Write items; a link that is finished, broken or full takes none. -/
def write (xs : List α) : Link α :=
  { l with written := l.written ++ xs, fifo := l.fifo.trans (List.prefix_append _ _) }

/-- Read the next `n` items. -/
def take (n : ℕ) : Link α :=
  { l with read := l.written.take (l.read.length + n), fifo := List.take_prefix _ _ }

def finish : Link α := { l with fin := true }

def cut : Link α := { l with broken := true }

/-- The transport is full, or it has room again. -/
def hold (full : Bool) : Link α := { l with full }

/-- It takes what is written to it. -/
def Open : Prop := l.fin = false ∧ l.broken = false ∧ l.full = false

instance : Decidable l.Open := inferInstanceAs (Decidable (_ ∧ _))

/-- It takes nothing although everything was read. -/
def Starved : Prop := l.queue = [] ∧ l.full = true

/-- Everything that will ever be written was read. -/
def Drained : Prop := l.read = l.written ∧ l.fin = true

@[simp] theorem written_write (xs : List α) : (l.write xs).written = l.written ++ xs := rfl
@[simp] theorem read_write (xs : List α) : (l.write xs).read = l.read := rfl
@[simp] theorem fin_write (xs : List α) : (l.write xs).fin = l.fin := rfl
@[simp] theorem broken_write (xs : List α) : (l.write xs).broken = l.broken := rfl
@[simp] theorem written_take (n : ℕ) : (l.take n).written = l.written := rfl
@[simp] theorem fin_take (n : ℕ) : (l.take n).fin = l.fin := rfl
@[simp] theorem broken_take (n : ℕ) : (l.take n).broken = l.broken := rfl
@[simp] theorem written_finish : l.finish.written = l.written := rfl
@[simp] theorem read_finish : l.finish.read = l.read := rfl
@[simp] theorem fin_finish : l.finish.fin = true := rfl
@[simp] theorem broken_finish : l.finish.broken = l.broken := rfl
@[simp] theorem written_cut : l.cut.written = l.written := rfl
@[simp] theorem read_cut : l.cut.read = l.read := rfl
@[simp] theorem fin_cut : l.cut.fin = l.fin := rfl

theorem read_append_queue : l.read ++ l.queue = l.written := by
  obtain ⟨rest, hrest⟩ := l.fifo
  rw [queue, ← hrest, List.drop_left]

theorem read_take (n : ℕ) : (l.take n).read = l.read ++ l.queue.take n := by
  have hsplit := l.read_append_queue
  change l.written.take (l.read.length + n) = _
  rw [← hsplit, List.take_length_add_append]

theorem queue_take (n : ℕ) : (l.take n).queue = l.queue.drop n := by
  have hwhole := (l.take n).read_append_queue
  rw [written_take, read_take, List.append_assoc, ← l.read_append_queue] at hwhole
  have hrest := List.append_cancel_left hwhole
  exact List.append_cancel_left (hrest.trans (List.take_append_drop n l.queue).symm)

theorem queue_write (xs : List α) : (l.write xs).queue = l.queue ++ xs := by
  have hwhole := (l.write xs).read_append_queue
  rw [written_write, read_write, ← l.read_append_queue, List.append_assoc] at hwhole
  exact List.append_cancel_left hwhole

@[simp] theorem queue_finish : l.finish.queue = l.queue := rfl
@[simp] theorem queue_cut : l.cut.queue = l.queue := rfl

/-- A link without its first `k` items, for those who do not count a header. -/
def skip (k : ℕ) : Link α :=
  { l with written := l.written.drop k, read := l.read.drop k, fifo := l.fifo.drop k }

@[simp] theorem fin_skip (k : ℕ) : (l.skip k).fin = l.fin := rfl
@[simp] theorem broken_skip (k : ℕ) : (l.skip k).broken = l.broken := rfl

theorem queue_skip {k : ℕ} (hk : k ≤ l.read.length) : (l.skip k).queue = l.queue := by
  simp only [queue, skip, List.drop_drop, List.length_drop]
  rw [Nat.add_sub_cancel' hk]

theorem skip_take {k : ℕ} (hk : k ≤ l.read.length) (n : ℕ) : (l.take n).skip k = (l.skip k).take n := by
  have hread : ((l.take n).skip k).read = ((l.skip k).take n).read := by
    change (l.take n).read.drop k = _
    rw [read_take, read_take, l.queue_skip hk, List.drop_append_of_le_length hk]
    rfl
  exact Link.ext rfl hread rfl rfl rfl

theorem skip_write {k : ℕ} (hk : k ≤ l.written.length) (xs : List α) :
    (l.write xs).skip k = (l.skip k).write xs :=
  Link.ext (List.drop_append_of_le_length hk) rfl rfl rfl rfl

theorem read_eq_written_of_queue (h : l.queue = []) : l.read = l.written := by
  rw [← l.read_append_queue, h, List.append_nil]

variable {l} in
theorem Drained.queue (h : l.Drained) : l.queue = [] := by
  rw [Link.queue, h.1, List.drop_length]

end Link

/-! ### Copies -/

/-- The buffer of a copy: what was read into it, how much of that was written on, and whether the source
has ended.  Its room is used again when nothing is left in it. -/
structure CopyBuffer (α : Type*) where
  buf : List α
  pos : ℕ
  readDone : Bool
  pos_le : pos ≤ buf.length
  cleared : pos = buf.length → buf = []

namespace CopyBuffer

variable (b : CopyBuffer α)

def new : CopyBuffer α := ⟨[], 0, false, Nat.le_refl 0, fun _ => rfl⟩

/-- What was read and not yet written. -/
def pending : List α := b.buf.drop b.pos

/-- Items arrive in the buffer. -/
def fill (xs : List α) : CopyBuffer α where
  buf := b.buf ++ xs
  pos := b.pos
  readDone := b.readDone
  pos_le := by
    have := b.pos_le
    rw [List.length_append]
    omega
  cleared h := by
    have hle := b.pos_le
    rw [List.length_append] at h
    rw [b.cleared (by omega), List.nil_append, ← List.length_eq_zero_iff]
    omega

/-- `n` items were written. -/
def advance (n : ℕ) : CopyBuffer α :=
  if h : b.pos + n < b.buf.length then
    ⟨b.buf, b.pos + n, b.readDone, Nat.le_of_lt h, fun he => absurd he (Nat.ne_of_lt h)⟩
  else { new with readDone := b.readDone }

/-- The source has ended. -/
def close : CopyBuffer α := { b with readDone := true }

@[simp] theorem readDone_fill (xs : List α) : (b.fill xs).readDone = b.readDone := rfl
@[simp] theorem readDone_close : b.close.readDone = true := rfl
@[simp] theorem pending_close : b.close.pending = b.pending := rfl

@[simp] theorem readDone_advance (n : ℕ) : (b.advance n).readDone = b.readDone := by
  rw [advance]
  split_ifs <;> rfl

@[simp] theorem pending_fill (xs : List α) : (b.fill xs).pending = b.pending ++ xs :=
  List.drop_append_of_le_length b.pos_le

@[simp] theorem pending_advance (n : ℕ) : (b.advance n).pending = b.pending.drop n := by
  rw [advance, pending, pending, List.drop_drop]
  split_ifs with h
  · rfl
  · rw [List.drop_of_length_le (Nat.not_lt.mp h)]
    rfl

/-- With nothing left in it there is room again. -/
theorem buf_eq_nil (h : b.pending = []) : b.buf = [] :=
  b.cleared (Nat.le_antisymm b.pos_le (List.drop_eq_nil_iff.mp h))

end CopyBuffer

/-- A copy, on its way or over. -/
inductive Copy (α : Type*) where
  | running (b : CopyBuffer α)
  | ended (ok : Bool)

def Copy.new : Copy α := .running .new

/-- What a copy meets: items to read, the end of its source or an error there, all three only while there
is room in the buffer, room to write, an error there, or the end of all its work. -/
inductive CopyEvent where
  | read (n : ℕ)
  | eof
  | readError
  | write (n : ℕ)
  | writeError
  | flush
deriving DecidableEq

/-- One step of a copy from `src` to `dst`.  However it ends, `dst` is finished. -/
def copyStep (capacity : ℕ) (src : Link α) (c : Copy α) (dst : Link α) (ev : CopyEvent) :
    Option (Link α × Copy α × Link α) :=
  match c with
  | .ended _ => none
  | .running b =>
      match ev with
      | .read n =>
          if b.readDone = false ∧ 0 < n ∧ b.buf.length + n ≤ capacity ∧ n ≤ src.queue.length then
            some (src.take n, .running (b.fill (src.queue.take n)), dst)
          else none
      | .eof =>
          if b.readDone = false ∧ b.buf.length < capacity ∧ src.queue.length = 0 ∧ src.fin = true ∧
              src.broken = false then
            some (src, .running b.close, dst)
          else none
      | .readError =>
          -- what is left in the buffer is lost
          if b.readDone = false ∧ b.buf.length < capacity ∧ src.broken = true then
            some (src, .ended false, dst.finish)
          else none
      | .write n =>
          if 0 < n ∧ n ≤ b.pending.length ∧ dst.Open then
            some (src, .running (b.advance n), dst.write (b.pending.take n))
          else none
      | .writeError =>
          if dst.broken = true then some (src, .ended false, dst.finish) else none
      | .flush =>
          if b.readDone = true ∧ b.pending.length = 0 ∧ dst.broken = false then
            some (src, .ended true, dst.finish)
          else none

section

variable {capacity : ℕ} {src dst : Link α} {k : ℕ}

theorem guard_map {β γ : Type*} {p q : Prop} [Decidable p] [Decidable q] {f : β → γ} {x : γ} {y : β}
    (hpq : p ↔ q) (hxy : x = f y) :
    (if p then some x else none) = (if q then some y else none).map f := by
  by_cases hq : q
  · rw [if_pos (hpq.mpr hq), if_pos hq, hxy, Option.map_some]
  · rw [if_neg (mt hpq.mp hq), if_neg hq, Option.map_none]

/-- A copy from behind a header that was read copies what follows it. -/
theorem copyStep_skip_src (hk : k ≤ src.read.length) (c : Copy α) (dst : Link α) (ev : CopyEvent) :
    copyStep capacity (src.skip k) c dst ev =
      (copyStep capacity src c dst ev).map fun r => (r.1.skip k, r.2) := by
  cases c with
  | ended ok => rfl
  | running b =>
      have hqueue := src.queue_skip hk
      cases ev with
      | read n =>
          simp only [copyStep, hqueue]
          exact guard_map Iff.rfl (by rw [src.skip_take hk])
      | eof =>
          simp only [copyStep, hqueue]
          exact guard_map Iff.rfl rfl
      | _ => exact guard_map Iff.rfl rfl

/-- A copy to behind a header that was written adds to what follows it. -/
theorem copyStep_skip_dst (hk : k ≤ dst.written.length) (src : Link α) (c : Copy α) (ev : CopyEvent) :
    copyStep capacity src c (dst.skip k) ev =
      (copyStep capacity src c dst ev).map fun r => (r.1, r.2.1, r.2.2.skip k) := by
  cases c with
  | ended ok => rfl
  | running b =>
      cases ev with
      | write n => exact guard_map Iff.rfl (by rw [dst.skip_write hk])
      | _ => exact guard_map Iff.rfl rfl

end

/-- A copy and the link it writes. -/
structure Hop (α : Type*) where
  copy : Copy α
  out : Link α

/-- One step of the copy at place `i` of a chain of hops behind a link. -/
def hopAt (capacity : ℕ) : ℕ → CopyEvent → Link α → List (Hop α) → Option (Link α × List (Hop α))
  | _, _, _, [] => none
  | 0, ev, l, h :: hs =>
      (copyStep capacity l h.copy h.out ev).map fun r => (r.1, ⟨r.2.1, r.2.2⟩ :: hs)
  | i + 1, ev, l, h :: hs =>
      (hopAt capacity i ev h.out hs).map fun r => (l, { h with out := r.1 } :: r.2)

/-- Change the link at place `i`. -/
def linkAt (f : Link α → Link α) : ℕ → Link α → List (Hop α) → Link α × List (Hop α)
  | 0, l, hs => (f l, hs)
  | _ + 1, l, [] => (l, [])
  | i + 1, l, h :: hs =>
      let later := linkAt f i h.out hs
      (l, { h with out := later.1 } :: later.2)

/-- The copy at place `i` is dropped, whatever it was at. -/
def abortAt : ℕ → List (Hop α) → List (Hop α)
  | _, [] => []
  | 0, h :: hs => ⟨.ended false, h.out.finish⟩ :: hs
  | i + 1, h :: hs => h :: abortAt i hs

/-- The link at which a chain ends. -/
def sink : Link α → List (Hop α) → Link α
  | l, [] => l
  | _, h :: hs => sink h.out hs

/-! ### What a run keeps -/

/-- A copy has written what it has read up to its buffer, and read on only until it knew the end. -/
def Carries (src : Link α) (c : Copy α) (dst : Link α) : Prop :=
  match c with
  | .running b =>
      src.read = dst.written ++ b.pending ∧ (b.readDone = true → src.Drained) ∧ dst.fin = false
  | .ended true => src.read = dst.written ∧ src.Drained ∧ dst.fin = true
  | .ended false => dst.written <+: src.read ∧ dst.fin = true

/-- Every copy of a chain carries over what it reads. -/
def Sound : Link α → List (Hop α) → Prop
  | _, [] => True
  | l, h :: hs => Carries l h.copy h.out ∧ Sound h.out hs

section

variable {capacity : ℕ} {src src' dst dst' : Link α} {c c' : Copy α} {ev : CopyEvent}

theorem Carries.written_isPrefix (h : Carries src c dst) : dst.written <+: src.read := by
  rcases c with b | (_ | _)
  · exact h.1 ▸ List.prefix_append _ _
  · exact h.1
  · exact h.1 ▸ List.prefix_rfl

/-- The party before a copy may write and finish the source as it likes. -/
theorem Carries.of_src (h : Carries src c dst) (hread : src'.read = src.read)
    (hend : src.Drained → src'.Drained) : Carries src' c dst := by
  rcases c with b | (_ | _)
  · exact ⟨hread.trans h.1, fun hb => hend (h.2.1 hb), h.2.2⟩
  · exact ⟨hread ▸ h.1, h.2⟩
  · exact ⟨hread.trans h.1, hend h.2.1, h.2.2⟩

/-- The party behind a copy may read as it likes. -/
theorem Carries.of_dst (h : Carries src c dst) (hwritten : dst'.written = dst.written)
    (hfin : dst'.fin = dst.fin) : Carries src c dst' := by
  rcases c with b | (_ | _)
  · exact ⟨hwritten ▸ h.1, h.2.1, hfin ▸ h.2.2⟩
  · exact ⟨hwritten ▸ h.1, hfin ▸ h.2⟩
  · exact ⟨hwritten ▸ h.1, h.2.1, hfin ▸ h.2.2⟩

/-- **What a step of a copy can be.** -/
theorem copyStep_cases (h : copyStep capacity src c dst ev = some (src', c', dst')) :
    ∃ b, c = .running b ∧
      ((∃ n, ev = .read n ∧ b.readDone = false ∧ 0 < n ∧ n ≤ src.queue.length ∧ src' = src.take n ∧
          c' = .running (b.fill (src.queue.take n)) ∧ dst' = dst) ∨
        (ev = .eof ∧ b.readDone = false ∧ src.queue = [] ∧ src.fin = true ∧ src' = src ∧
          c' = .running b.close ∧ dst' = dst) ∨
        (∃ n, ev = .write n ∧ 0 < n ∧ n ≤ b.pending.length ∧ dst.Open ∧ src' = src ∧
          c' = .running (b.advance n) ∧ dst' = dst.write (b.pending.take n)) ∨
        (ev = .flush ∧ b.readDone = true ∧ b.pending = [] ∧ src' = src ∧ c' = .ended true ∧
          dst' = dst.finish) ∨
        (src' = src ∧ (src.broken = true ∨ dst.broken = true) ∧ c' = .ended false ∧
          dst' = dst.finish)) := by
  cases c with
  | ended ok => cases h
  | running b =>
      refine ⟨b, rfl, ?_⟩
      cases ev with
      | read n =>
          obtain ⟨⟨hdone, hpos, -, hlen⟩, h⟩ := Option.ite_none_right_eq_some.mp h
          cases h
          exact .inl ⟨n, rfl, hdone, hpos, hlen, rfl, rfl, rfl⟩
      | eof =>
          obtain ⟨⟨hdone, -, hqueue, hfin, -⟩, h⟩ := Option.ite_none_right_eq_some.mp h
          cases h
          exact .inr (.inl ⟨rfl, hdone, List.length_eq_zero_iff.mp hqueue, hfin, rfl, rfl, rfl⟩)
      | readError =>
          obtain ⟨⟨-, -, hbroken⟩, h⟩ := Option.ite_none_right_eq_some.mp h
          cases h
          exact .inr (.inr (.inr (.inr ⟨rfl, .inl hbroken, rfl, rfl⟩)))
      | write n =>
          obtain ⟨⟨hpos, hlen, hopen⟩, h⟩ := Option.ite_none_right_eq_some.mp h
          cases h
          exact .inr (.inr (.inl ⟨n, rfl, hpos, hlen, hopen, rfl, rfl, rfl⟩))
      | writeError =>
          obtain ⟨hbroken, h⟩ := Option.ite_none_right_eq_some.mp h
          cases h
          exact .inr (.inr (.inr (.inr ⟨rfl, .inr hbroken, rfl, rfl⟩)))
      | flush =>
          obtain ⟨⟨hdone, hpending, -⟩, h⟩ := Option.ite_none_right_eq_some.mp h
          cases h
          exact .inr (.inr (.inr (.inl ⟨rfl, hdone, List.length_eq_zero_iff.mp hpending, rfl, rfl, rfl⟩)))

/-- Only a read changes the source. -/
theorem copyStep_src_of_not_read (hev : ∀ n, ev ≠ .read n)
    (h : copyStep capacity src c dst ev = some (src', c', dst')) : src' = src := by
  obtain ⟨b, -, ⟨n, hread, -⟩ | ⟨-, -, -, -, hsrc, -⟩ | ⟨n, -, -, -, -, hsrc, -⟩ | ⟨-, -, -, hsrc, -⟩ |
    ⟨hsrc, -⟩⟩ := copyStep_cases h
  · exact absurd hread (hev n)
  all_goals exact hsrc

theorem carries_copyStep (h : copyStep capacity src c dst ev = some (src', c', dst'))
    (hc : Carries src c dst) : Carries src' c' dst' := by
  obtain ⟨b, rfl, ⟨n, -, hdone, -, -, rfl, rfl, rfl⟩ | ⟨-, -, hqueue, hfin, rfl, rfl, rfl⟩ |
    ⟨n, -, -, -, -, rfl, rfl, rfl⟩ | ⟨-, hdone, hpending, rfl, rfl, rfl⟩ | ⟨rfl, -, rfl, rfl⟩⟩ :=
    copyStep_cases h
  · refine ⟨?_, ?_, hc.2.2⟩
    · rw [Link.read_take, hc.1, CopyBuffer.pending_fill, List.append_assoc]
    · intro hb
      rw [CopyBuffer.readDone_fill, hdone] at hb
      cases hb
  · exact ⟨hc.1, fun _ => ⟨src'.read_eq_written_of_queue hqueue, hfin⟩, hc.2.2⟩
  · refine ⟨?_, ?_, hc.2.2⟩
    · rw [Link.written_write, CopyBuffer.pending_advance, List.append_assoc, List.take_append_drop]
      exact hc.1
    · rw [CopyBuffer.readDone_advance]
      exact hc.2.1
  · refine ⟨?_, hc.2.1 hdone, rfl⟩
    rw [hc.1, hpending, List.append_nil, Link.written_finish]
  · exact ⟨hc.written_isPrefix, rfl⟩

/-- A copy only reads its source. -/
theorem copyStep_src (h : copyStep capacity src c dst ev = some (src', c', dst')) :
    src'.written = src.written ∧ src'.fin = src.fin ∧ src'.broken = src.broken := by
  obtain ⟨b, rfl, ⟨n, -, -, -, -, rfl, -⟩ | ⟨-, -, -, -, rfl, -⟩ | ⟨n, -, -, -, -, rfl, -⟩ |
    ⟨-, -, -, rfl, -⟩ | ⟨rfl, -⟩⟩ := copyStep_cases h
  all_goals exact ⟨rfl, rfl, rfl⟩

/-- A copy takes nothing back. -/
theorem copyStep_grows (h : copyStep capacity src c dst ev = some (src', c', dst')) :
    src.read <+: src'.read ∧ dst.written <+: dst'.written := by
  obtain ⟨b, rfl, ⟨n, -, -, -, -, rfl, -, rfl⟩ | ⟨-, -, -, -, rfl, -, rfl⟩ |
    ⟨n, -, -, -, -, rfl, -, rfl⟩ | ⟨-, -, -, rfl, -, rfl⟩ | ⟨rfl, -, -, rfl⟩⟩ := copyStep_cases h
  · rw [Link.read_take]
    exact ⟨List.prefix_append _ _, List.prefix_rfl⟩
  · exact ⟨List.prefix_rfl, List.prefix_rfl⟩
  · exact ⟨List.prefix_rfl, List.prefix_append _ _⟩
  · exact ⟨List.prefix_rfl, List.prefix_rfl⟩
  · exact ⟨List.prefix_rfl, List.prefix_rfl⟩

/-- A copy only writes and finishes its destination. -/
theorem copyStep_dst (h : copyStep capacity src c dst ev = some (src', c', dst')) :
    dst'.read = dst.read ∧ (dst.Drained → dst'.Drained) ∧ dst'.broken = dst.broken := by
  obtain ⟨b, rfl, ⟨n, -, -, -, -, -, -, rfl⟩ | ⟨-, -, -, -, -, -, rfl⟩ |
    ⟨n, -, -, -, hopen, -, -, rfl⟩ | ⟨-, -, -, -, -, rfl⟩ | ⟨-, -, -, rfl⟩⟩ := copyStep_cases h
  · exact ⟨rfl, id, rfl⟩
  · exact ⟨rfl, id, rfl⟩
  · exact ⟨rfl, fun hd => absurd (hopen.1.symm.trans hd.2) Bool.false_ne_true, rfl⟩
  · exact ⟨rfl, fun hd => ⟨hd.1, rfl⟩, rfl⟩
  · exact ⟨rfl, fun hd => ⟨hd.1, rfl⟩, rfl⟩

end

/-! ### Chains of hops -/

section

variable {capacity : ℕ} {l l' : Link α} {hs hs' : List (Hop α)} {i : ℕ} {ev : CopyEvent}

theorem Sound.of_head (h : Sound l hs) (hread : l'.read = l.read) (hend : l.Drained → l'.Drained) :
    Sound l' hs := by
  cases hs with
  | nil => trivial
  | cons hop hs => exact ⟨h.1.of_src hread hend, h.2⟩

/-- A step of a hop is one of the first copy, or one of a later hop behind it. -/
@[elab_as_elim]
theorem hopAt_induction {motive : Link α → List (Hop α) → Link α → List (Hop α) → Prop}
    (first : ∀ l hop hs src c dst, copyStep capacity l hop.copy hop.out ev = some (src, c, dst) →
      motive l (hop :: hs) src (⟨c, dst⟩ :: hs))
    (later : ∀ l hop hs i out hs', hopAt capacity i ev hop.out hs = some (out, hs') →
      motive hop.out hs out hs' → motive l (hop :: hs) l ({ hop with out } :: hs'))
    (h : hopAt capacity i ev l hs = some (l', hs')) : motive l hs l' hs' := by
  induction i generalizing l l' hs hs' with
  | zero =>
      cases hs with
      | nil => cases h
      | cons hop hs =>
          obtain ⟨⟨src, c, dst⟩, hstep, hr⟩ := Option.map_eq_some_iff.mp h
          cases hr
          exact first l hop hs src c dst hstep
  | succ i ih =>
      cases hs with
      | nil => cases h
      | cons hop hs =>
          obtain ⟨⟨out, hs'⟩, hstep, hr⟩ := Option.map_eq_some_iff.mp h
          cases hr
          exact later l hop hs i out hs' hstep (ih hstep)

theorem hopAt_head (h : hopAt capacity i ev l hs = some (l', hs')) :
    l'.written = l.written ∧ l'.fin = l.fin ∧ l'.broken = l.broken := by
  refine hopAt_induction ?_ ?_ h
  · exact fun l hop hs src c dst hstep => copyStep_src hstep
  · exact fun l hop hs i out hs' hstep ih => ⟨rfl, rfl, rfl⟩

/-- A step of a hop keeps a chain sound. -/
theorem sound_hopAt (h : hopAt capacity i ev l hs = some (l', hs')) : Sound l hs → Sound l' hs' := by
  refine hopAt_induction ?_ ?_ h
  · intro l hop hs src c dst hstep hsound
    obtain ⟨hread, hend, -⟩ := copyStep_dst hstep
    exact ⟨carries_copyStep hstep hsound.1, hsound.2.of_head hread hend⟩
  · intro l hop hs i out hs' hstep ih hsound
    obtain ⟨hwritten, hfin, -⟩ := hopAt_head hstep
    exact ⟨hsound.1.of_dst hwritten hfin, ih hsound.2⟩

theorem linkAt_head {f : Link α → Link α} (hwritten : ∀ l, (f l).written = l.written)
    (hfin : ∀ l, (f l).fin = l.fin) (i : ℕ) (l : Link α) (hs : List (Hop α)) :
    (linkAt f i l hs).1.written = l.written ∧ (linkAt f i l hs).1.fin = l.fin := by
  cases i with
  | zero => exact ⟨hwritten l, hfin l⟩
  | succ i => cases hs <;> exact ⟨rfl, rfl⟩

/-- Links may break anywhere, and the last one may be read. -/
theorem sound_linkAt {f : Link α → Link α} (hwritten : ∀ l, (f l).written = l.written)
    (hfin : ∀ l, (f l).fin = l.fin) (hread : i < hs.length → ∀ l, (f l).read = l.read)
    (hs₀ : Sound l hs) : Sound (linkAt f i l hs).1 (linkAt f i l hs).2 := by
  induction i generalizing l hs with
  | zero =>
      cases hs with
      | nil => trivial
      | cons hop hs =>
          have hread₀ := hread (Nat.zero_lt_succ _) l
          exact hs₀.of_head hread₀ fun hd =>
            ⟨hread₀.trans (hd.1.trans (hwritten l).symm), (hfin l).trans hd.2⟩
  | succ i ih =>
      cases hs with
      | nil => trivial
      | cons hop hs =>
          have hlater := ih (fun hi => hread (Nat.succ_lt_succ hi)) hs₀.2
          obtain ⟨hwritten', hfin'⟩ := linkAt_head hwritten hfin i hop.out hs
          exact ⟨hs₀.1.of_dst hwritten' hfin', hlater⟩

/-- Copies may be dropped at any time. -/
theorem sound_abortAt (h : Sound l hs) : Sound l (abortAt i hs) := by
  induction hs generalizing i l with
  | nil =>
      rw [abortAt]
      trivial
  | cons hop hs ih =>
      cases i with
      | zero => exact ⟨⟨h.1.written_isPrefix, rfl⟩, h.2.of_head rfl fun hd => ⟨hd.1, rfl⟩⟩
      | succ i => exact ⟨h.1, ih h.2⟩

/-- **What comes out of a chain went into it**, in the same order. -/
theorem Sound.written_isPrefix (h : Sound l hs) : (sink l hs).written <+: l.written := by
  induction hs generalizing l with
  | nil => exact List.prefix_rfl
  | cons hop hs ih => exact (ih h.2).trans (h.1.written_isPrefix.trans l.fifo)

/-- No copy of the chain ended with an error. -/
def Unfailed (hs : List (Hop α)) : Prop := ∀ hop ∈ hs, hop.copy ≠ .ended false

/-- **A finished end has everything**, unless a copy on the way failed. -/
theorem Sound.complete (h : Sound l hs) (hok : Unfailed hs) (hfin : (sink l hs).fin = true) :
    (sink l hs).written = l.written ∧ l.fin = true := by
  induction hs generalizing l with
  | nil => exact ⟨rfl, hfin⟩
  | cons hop hs ih =>
      obtain ⟨hwritten, hend⟩ :=
        ih h.2 (fun x hx => hok x (List.mem_cons_of_mem hop hx)) hfin
      have hcopy := h.1
      rcases hc : hop.copy with b | (_ | _)
      · rw [hc] at hcopy
        exact absurd (hcopy.2.2.symm.trans hend) Bool.false_ne_true
      · exact absurd hc (hok hop List.mem_cons_self)
      · rw [hc] at hcopy
        obtain ⟨hread, hdrained, -⟩ := hcopy
        exact ⟨hwritten.trans (hread.symm.trans hdrained.1), hdrained.2⟩

/-! ### Delivery -/

/-- No link is broken. -/
def Intact (l : Link α) (hs : List (Hop α)) : Prop :=
  l.broken = false ∧ ∀ hop ∈ hs, hop.out.broken = false

/-- The steps of a copy whose links are not broken, one item at a time. -/
def CopyEvent.plain : List CopyEvent := [.read 1, .eof, .write 1, .flush]

/-- What has come out is not read, or a link takes nothing although it is empty. -/
def Stalled (l : Link α) (hs : List (Hop α)) : Prop :=
  (sink l hs).queue ≠ [] ∨ ∃ hop ∈ hs, hop.out.Starved

variable (capacity) in
/-- Some copy can go on, or the chain is stalled. -/
def GoesOn (l : Link α) (hs : List (Hop α)) : Prop :=
  (∃ i, ∃ ev ∈ CopyEvent.plain, (hopAt capacity i ev l hs).isSome) ∨ Stalled l hs

theorem GoesOn.cons {hop : Hop α} (h : GoesOn capacity hop.out hs) (l : Link α) :
    GoesOn capacity l (hop :: hs) := by
  rcases h with ⟨i, ev, hkind, hev⟩ | hunread | ⟨x, hx, hstarved⟩
  · exact .inl ⟨i + 1, ev, hkind, by simpa [hopAt] using hev⟩
  · exact .inr (.inl hunread)
  · exact .inr (.inr ⟨x, List.mem_cons_of_mem hop hx, hstarved⟩)

/-- A copy with something to read, to write or to conclude goes on, unless it has to wait for room. -/
theorem Carries.exists_step {out : Link α} {b : CopyBuffer α} (hcap : 0 < capacity)
    (h : Carries l (.running b) out) (hl : l.broken = false) (hout : out.broken = false)
    (hmore : l.queue ≠ [] ∨ l.fin = true) :
    (∃ ev ∈ CopyEvent.plain, (copyStep capacity l (.running b) out ev).isSome) ∨ out.full = true := by
  by_cases hpending : b.pending = []
  · left
    cases hdone : b.readDone with
    | true => exact ⟨.flush, by simp [CopyEvent.plain], by simp [copyStep, hdone, hpending, hout]⟩
    | false =>
        have hroom : b.buf.length + 1 ≤ capacity := by
          rw [b.buf_eq_nil hpending]
          exact hcap
        by_cases hqueue : l.queue = []
        · have hfin := hmore.resolve_left (not_not.mpr hqueue)
          exact ⟨.eof, by simp [CopyEvent.plain],
            by simp [copyStep, hdone, hqueue, hfin, hl, Nat.lt_of_succ_le hroom]⟩
        · have hlen := List.length_pos_iff.mpr hqueue
          exact ⟨.read 1, by simp [CopyEvent.plain],
            by simp [copyStep, hdone, hroom, Nat.succ_le_of_lt hlen]⟩
  · cases hfull : out.full with
    | true => exact .inr rfl
    | false =>
        have hlen := List.length_pos_iff.mpr hpending
        exact .inl ⟨.write 1, by simp [CopyEvent.plain],
          by simp [copyStep, Link.Open, h.2.2, hout, hfull, Nat.succ_le_of_lt hlen]⟩

/-- So does a chain with such a copy first: the copy waits for room, which the next one makes. -/
theorem goesOn_of_running {hop : Hop α} {b : CopyBuffer α} (hcap : 0 < capacity) (h : Sound l (hop :: hs))
    (hintact : Intact l (hop :: hs)) (hc : hop.copy = .running b) (hmore : l.queue ≠ [] ∨ l.fin = true)
    (hlater : hop.out.queue ≠ [] → GoesOn capacity hop.out hs) : GoesOn capacity l (hop :: hs) := by
  have hcopy := h.1
  rw [hc] at hcopy
  rcases hcopy.exists_step hcap hintact.1 (hintact.2 hop List.mem_cons_self) hmore with
    ⟨ev, hkind, hev⟩ | hfull
  · exact .inl ⟨0, ev, hkind, by simpa [hopAt, hc] using hev⟩
  · by_cases hempty : hop.out.queue = []
    · exact .inr (.inr ⟨hop, List.mem_cons_self, hempty, hfull⟩)
    · exact (hlater hempty).cons l

theorem Intact.tail {hop : Hop α} (h : Intact l (hop :: hs)) : Intact hop.out hs :=
  ⟨h.2 hop List.mem_cons_self, fun x hx => h.2 x (List.mem_cons_of_mem hop hx)⟩

theorem Unfailed.tail {hop : Hop α} (h : Unfailed (hop :: hs)) : Unfailed hs :=
  fun x hx => h x (List.mem_cons_of_mem hop hx)

/-- **What lies in an unbroken chain goes on.** -/
theorem Sound.goesOn_of_queue (hcap : 0 < capacity) (h : Sound l hs) (hintact : Intact l hs)
    (hok : Unfailed hs) (hqueue : l.queue ≠ []) : GoesOn capacity l hs := by
  induction hs generalizing l with
  | nil => exact .inr (.inl hqueue)
  | cons hop hs ih =>
      rcases hc : hop.copy with b | (_ | _)
      · exact goesOn_of_running hcap h hintact hc (.inl hqueue) (ih h.2 hintact.tail hok.tail)
      · exact absurd hc (hok hop List.mem_cons_self)
      · -- a copy that is done has read everything
        have hcopy := h.1
        rw [hc] at hcopy
        exact absurd hcopy.2.1.queue hqueue

/-- **A chain whose source is finished goes on** until all its copies are done. -/
theorem Sound.goesOn (hcap : 0 < capacity) (h : Sound l hs) (hintact : Intact l hs)
    (hok : Unfailed hs) (hfin : l.fin = true) :
    (∀ hop ∈ hs, hop.copy = .ended true) ∨ GoesOn capacity l hs := by
  induction hs generalizing l with
  | nil => exact .inl (by simp)
  | cons hop hs ih =>
      rcases hc : hop.copy with b | (_ | _)
      · exact .inr (goesOn_of_running hcap h hintact hc (.inr hfin)
          (Sound.goesOn_of_queue hcap h.2 hintact.tail hok.tail))
      · exact absurd hc (hok hop List.mem_cons_self)
      · have hcopy := h.1
        rw [hc] at hcopy
        rcases ih h.2 hintact.tail hok.tail hcopy.2.2 with hall | hmore
        · exact .inl (List.forall_mem_cons.mpr ⟨hc, hall⟩)
        · exact .inr (hmore.cons l)

/-- A chain whose copies are all done has finished its end. -/
theorem Sound.fin_of_ended (h : Sound l hs) (hall : ∀ hop ∈ hs, hop.copy = .ended true)
    (hfin : l.fin = true) : (sink l hs).fin = true := by
  induction hs generalizing l with
  | nil => exact hfin
  | cons hop hs ih =>
      have hcopy := h.1
      rw [hall hop List.mem_cons_self] at hcopy
      exact ih h.2 (fun x hx => hall x (List.mem_cons_of_mem hop hx)) hcopy.2.2

/-- Unbroken links make no copy fail. -/
theorem intact_hopAt (h : hopAt capacity i ev l hs = some (l', hs')) :
    Intact l hs ∧ Unfailed hs → Intact l' hs' ∧ Unfailed hs' := by
  refine hopAt_induction ?_ ?_ h
  · rintro l hop hs src c dst hstep ⟨hintact, hok⟩
    have hout := hintact.2 hop List.mem_cons_self
    have hsrc := (copyStep_src hstep).2.2
    have hdst := (copyStep_dst hstep).2.2
    refine ⟨⟨hsrc.trans hintact.1, List.forall_mem_cons.mpr ⟨hdst.trans hout, ?_⟩⟩,
      List.forall_mem_cons.mpr ⟨?_, ?_⟩⟩
    · exact fun x hx => hintact.2 x (List.mem_cons_of_mem hop hx)
    · rintro rfl
      obtain ⟨b, -, ⟨n, -, -, -, -, -, hc, -⟩ | ⟨-, -, -, -, -, hc, -⟩ | ⟨n, -, -, -, -, -, hc, -⟩ |
        ⟨-, -, -, -, hc, -⟩ | ⟨-, hbroken, -⟩⟩ := copyStep_cases hstep
      · cases hc
      · cases hc
      · cases hc
      · cases hc
      · simp [hintact.1, hout] at hbroken
    · exact fun x hx => hok x (List.mem_cons_of_mem hop hx)
  · rintro l hop hs i out hs' hstep ih ⟨hintact, hok⟩
    obtain ⟨hi, ho⟩ := ih ⟨hintact.tail, hok.tail⟩
    exact ⟨⟨hintact.1, List.forall_mem_cons.mpr hi⟩,
      List.forall_mem_cons.mpr ⟨hok hop List.mem_cons_self, ho⟩⟩

/-- The steps a copy with `k` hops behind it still has before it, for itself and for what is in its
buffer: every item has to be written here, and read and written at every hop behind. -/
def Copy.load (k : ℕ) : Copy α → ℕ
  | .running b => (2 * k + 1) * b.pending.length + bif b.readDone then 1 else 2
  | .ended _ => 0

/-- The steps a chain still has before it. -/
def weight : Link α → List (Hop α) → ℕ
  | _, [] => 0
  | l, hop :: hs =>
      (2 * hs.length + 2) * l.queue.length + hop.copy.load hs.length + weight hop.out hs

theorem weight_write (l : Link α) (hs : List (Hop α)) (xs : List α) :
    weight (l.write xs) hs = weight l hs + 2 * hs.length * xs.length := by
  cases hs with
  | nil => simp [weight]
  | cons hop hs =>
      simp only [weight, Link.queue_write, List.length_append, List.length_cons]
      ring

theorem weight_finish (l : Link α) (hs : List (Hop α)) : weight l.finish hs = weight l hs := by
  cases hs <;> rfl

theorem length_hopAt (h : hopAt capacity i ev l hs = some (l', hs')) : hs'.length = hs.length := by
  refine hopAt_induction ?_ ?_ h
  · exact fun l hop hs src c dst hstep => rfl
  · exact fun l hop hs i out hs' hstep ih => congrArg Nat.succ ih

/-- At every hop each item is read once and written once, and so is the end. -/
theorem Sound.weight_le (h : Sound l hs) : weight l hs ≤ 2 * hs.length * (l.written.length + 1) := by
  induction hs generalizing l with
  | nil => exact Nat.zero_le _
  | cons hop hs ih =>
      have hlater := ih h.2
      have hwritten := congrArg List.length l.read_append_queue
      have hcopy := h.1
      rw [List.length_append] at hwritten
      rw [weight, List.length_cons]
      -- what was read is written or in the buffer
      have hload : hop.copy.load hs.length + 2 * hs.length * hop.out.written.length ≤
          (2 * hs.length + 1) * l.read.length + 2 := by
        rcases hc : hop.copy with b | ok
        · rw [hc] at hcopy
          rw [hcopy.1, List.length_append, Copy.load]
          cases b.readDone <;> simp only [cond_true, cond_false] <;> ring_nf <;> omega
        · have hle := Nat.mul_le_mul_left (2 * hs.length) hcopy.written_isPrefix.length_le
          rw [Copy.load]
          ring_nf at hle ⊢
          omega
      rw [← hwritten]
      ring_nf at hload hlater ⊢
      omega

/-- Changing the last link, or any link without its items, does not change the steps there are before. -/
theorem weight_linkAt {f : Link α → Link α} (hf : i < hs.length → ∀ l, (f l).queue = l.queue) :
    (linkAt f i l hs).2.length = hs.length ∧
      weight (linkAt f i l hs).1 (linkAt f i l hs).2 = weight l hs := by
  induction i generalizing l hs with
  | zero =>
      cases hs with
      | nil => exact ⟨rfl, rfl⟩
      | cons hop hs =>
          refine ⟨rfl, ?_⟩
          simp only [linkAt, weight, hf (Nat.zero_lt_succ _) l]
  | succ i ih =>
      cases hs with
      | nil => exact ⟨rfl, rfl⟩
      | cons hop hs =>
          obtain ⟨hlen, hweight⟩ := @ih hop.out hs fun hi => hf (Nat.succ_lt_succ hi)
          refine ⟨congrArg Nat.succ hlen, ?_⟩
          simp only [linkAt, weight, hlen, hweight]

theorem intact_linkAt {f : Link α → Link α} (hf : ∀ l, (f l).broken = l.broken)
    (h : Intact l hs ∧ Unfailed hs) :
    Intact (linkAt f i l hs).1 (linkAt f i l hs).2 ∧ Unfailed (linkAt f i l hs).2 := by
  induction i generalizing l hs with
  | zero => exact ⟨⟨(hf l).trans h.1.1, h.1.2⟩, h.2⟩
  | succ i ih =>
      cases hs with
      | nil => exact h
      | cons hop hs =>
          obtain ⟨hintact, hok⟩ := @ih hop.out hs ⟨h.1.tail, h.2.tail⟩
          exact ⟨⟨h.1.1, List.forall_mem_cons.mpr hintact⟩,
            List.forall_mem_cons.mpr ⟨h.2 hop List.mem_cons_self, hok⟩⟩

/-- **Every step of a hop makes the weight smaller.** -/
theorem weight_hopAt (h : hopAt capacity i ev l hs = some (l', hs')) : weight l' hs' < weight l hs := by
  refine hopAt_induction ?_ ?_ h
  · rintro l ⟨copy, out⟩ hs src c dst hstep
    dsimp only at hstep
    obtain ⟨b, rfl, ⟨n, -, hdone, hpos, hlen, rfl, rfl, rfl⟩ | ⟨-, hdone, -, -, rfl, rfl, rfl⟩ |
      ⟨n, -, hpos, hlen, -, rfl, rfl, rfl⟩ | ⟨-, hdone, hpending, rfl, rfl, rfl⟩ |
      ⟨rfl, -, rfl, rfl⟩⟩ := copyStep_cases hstep
    · -- what is read has been taken off the queue before, where it counted one more
      have hmin : (l.queue.take n).length = n := List.length_take_of_le hlen
      have hsplit : l.queue.length = (l.queue.length - n) + n := by omega
      simp only [weight, Copy.load, Link.queue_take, CopyBuffer.pending_fill, List.length_append,
        List.length_drop, hmin, CopyBuffer.readDone_fill]
      rw [hsplit, Nat.add_sub_cancel]
      ring_nf
      omega
    · simp only [weight, Copy.load, CopyBuffer.pending_close, CopyBuffer.readDone_close, hdone,
        cond_true, cond_false]
      omega
    · have hmin : (b.pending.take n).length = n := List.length_take_of_le hlen
      have hsplit : b.pending.length = (b.pending.length - n) + n := by omega
      simp only [weight, Copy.load, CopyBuffer.pending_advance, List.length_drop,
        CopyBuffer.readDone_advance, weight_write, hmin]
      rw [hsplit, Nat.add_sub_cancel]
      ring_nf
      omega
    · simp only [weight, Copy.load, weight_finish, hdone, cond_true]
      omega
    · simp only [weight, Copy.load, weight_finish]
      cases b.readDone <;> simp only [cond_true, cond_false] <;> omega
  · intro l hop hs i out hs' hstep ih
    simp only [weight, length_hopAt hstep]
    omega

end

/-! ### Runs of a chain -/

/-- A link and the hops behind it. -/
structure Chain (α : Type*) where
  source : Link α
  hops : List (Hop α)

/-- What can happen to a chain: its source is written and finished, a copy does something or is dropped, its
end is read, and any link may be full for a while or break. -/
inductive Move (α : Type*) where
  | write (xs : List α)
  | finish
  | hop (i : ℕ) (ev : CopyEvent)
  | abort (i : ℕ)
  | take (n : ℕ)
  | hold (i : ℕ) (full : Bool)
  | cut (i : ℕ)

namespace Move

/-- A move that breaks no link and drops no copy. -/
def Harmless : Move α → Prop
  | abort _ => False
  | cut _ => False
  | _ => True

/-- A step of one of the copies. -/
def isHop : Move α → Bool
  | hop _ _ => true
  | _ => false

end Move

namespace Chain

/-- A chain of `n` hops before anything has happened. -/
def start (n : ℕ) : Chain α := ⟨.new, List.replicate n ⟨.new, .new⟩⟩

variable (c : Chain α)

def last : Link α := sink c.source c.hops

def Sound : Prop := Relay.Sound c.source c.hops

def weight : ℕ := Relay.weight c.source c.hops

/-- Nothing is broken, and no copy ended with an error. -/
def Whole : Prop := Intact c.source c.hops ∧ Unfailed c.hops

/-- Change the link at place `i`. -/
def modify (f : Link α → Link α) (i : ℕ) : Chain α :=
  ⟨(linkAt f i c.source c.hops).1, (linkAt f i c.source c.hops).2⟩

def move (capacity : ℕ) (c : Chain α) : Move α → Option (Chain α)
  | .write xs => if c.source.Open then some { c with source := c.source.write xs } else none
  | .finish => some { c with source := c.source.finish }
  | .hop i ev => (hopAt capacity i ev c.source c.hops).map fun r => ⟨r.1, r.2⟩
  | .abort i => some { c with hops := abortAt i c.hops }
  | .take n => if n ≤ c.last.queue.length then some (c.modify (Link.take · n) c.hops.length) else none
  | .hold i full => some (c.modify (Link.hold · full) i)
  | .cut i => some (c.modify Link.cut i)

variable {c} {c' : Chain α} {capacity : ℕ}

theorem sound_start (n : ℕ) : (start n : Chain α).Sound := by
  have hall : ∀ n, Relay.Sound (Link.new : Link α) (List.replicate n ⟨.new, .new⟩) := by
    intro n
    induction n with
    | zero => trivial
    | succ n ih => exact ⟨⟨rfl, fun h => absurd h Bool.false_ne_true, rfl⟩, ih⟩
  exact hall n

theorem sound_move {m : Move α} (h : c.move capacity m = some c') (hc : c.Sound) : c'.Sound := by
  cases m with
  | write xs =>
      obtain ⟨hopen, h⟩ := Option.ite_none_right_eq_some.mp h
      cases h
      exact hc.of_head rfl fun hd => absurd (hopen.1.symm.trans hd.2) Bool.false_ne_true
  | finish =>
      cases h
      exact hc.of_head rfl fun hd => ⟨hd.1, rfl⟩
  | hop i ev =>
      obtain ⟨⟨l, hs⟩, hstep, hr⟩ := Option.map_eq_some_iff.mp h
      cases hr
      exact sound_hopAt hstep hc
  | abort i =>
      cases h
      exact sound_abortAt hc
  | take n =>
      obtain ⟨-, h⟩ := Option.ite_none_right_eq_some.mp h
      cases h
      exact sound_linkAt (fun _ => rfl) (fun _ => rfl) (fun hlt => absurd hlt (Nat.lt_irrefl _)) hc
  | hold i full | cut i =>
      cases h
      exact sound_linkAt (fun _ => rfl) (fun _ => rfl) (fun _ _ => rfl) hc

theorem sound_run (capacity : ℕ) (ms : List (Move α)) (h : Runs.run (move capacity) ms c = some c')
    (hc : c.Sound) : c'.Sound :=
  Runs.run_invariant hc (fun _ _ _ hc h => sound_move h hc) h

theorem run_single {m : Move α} (h : c.move capacity m = some c') :
    Runs.run (move capacity) [m] c = some c' := by
  rw [Runs.run, h]
  rfl

/-- A harmless move breaks nothing. -/
theorem whole_move {m : Move α} (hc : c.Whole) (h : c.move capacity m = some c') (hm : m.Harmless) :
    c'.Whole := by
  cases m with
  | write xs =>
      obtain ⟨-, h⟩ := Option.ite_none_right_eq_some.mp h
      cases h
      exact hc
  | finish =>
      cases h
      exact hc
  | hop i ev =>
      obtain ⟨⟨l, hs⟩, hstep, hr⟩ := Option.map_eq_some_iff.mp h
      cases hr
      exact intact_hopAt hstep hc
  | abort i => exact absurd hm id
  | take n =>
      obtain ⟨-, h⟩ := Option.ite_none_right_eq_some.mp h
      cases h
      exact intact_linkAt (fun _ => rfl) hc
  | hold i full =>
      cases h
      exact intact_linkAt (fun _ => rfl) hc
  | cut i => exact absurd hm id

/-- When the source is finished, a harmless move brings the chain no further from its end, and the step of a
hop brings it nearer. -/
theorem weight_move {m : Move α} (h : c.move capacity m = some c') (hm : m.Harmless)
    (hfin : c.source.fin = true) :
    c'.source.fin = true ∧ c'.source.written = c.source.written ∧
      c'.weight + (if m.isHop then 1 else 0) ≤ c.weight := by
  cases m with
  | write xs =>
      obtain ⟨hopen, -⟩ := Option.ite_none_right_eq_some.mp h
      exact absurd (hopen.1.symm.trans hfin) Bool.false_ne_true
  | finish =>
      cases h
      exact ⟨rfl, rfl, (weight_finish _ _).le⟩
  | hop i ev =>
      obtain ⟨⟨l, hs⟩, hstep, hr⟩ := Option.map_eq_some_iff.mp h
      cases hr
      obtain ⟨hwritten, hfin', -⟩ := hopAt_head hstep
      exact ⟨hfin'.trans hfin, hwritten, weight_hopAt hstep⟩
  | abort i => exact absurd hm id
  | take n =>
      obtain ⟨-, h⟩ := Option.ite_none_right_eq_some.mp h
      cases h
      obtain ⟨-, hweight⟩ := @weight_linkAt _ c.source c.hops c.hops.length (Link.take · n)
        fun hlt => absurd hlt (Nat.lt_irrefl _)
      obtain ⟨hwritten, hfin'⟩ := linkAt_head (f := (Link.take · n)) (fun _ => rfl) (fun _ => rfl)
        c.hops.length c.source c.hops
      exact ⟨hfin'.trans hfin, hwritten, hweight.le⟩
  | hold i full =>
      cases h
      obtain ⟨-, hweight⟩ := @weight_linkAt _ c.source c.hops i (Link.hold · full) fun _ _ => rfl
      obtain ⟨hwritten, hfin'⟩ := linkAt_head (f := (Link.hold · full)) (fun _ => rfl) (fun _ => rfl)
        i c.source c.hops
      exact ⟨hfin'.trans hfin, hwritten, hweight.le⟩
  | cut i => exact absurd hm id

theorem whole_run {ms : List (Move α)} (hc : c.Whole) (h : Runs.run (move capacity) ms c = some c')
    (hms : ∀ m ∈ ms, m.Harmless) : c'.Whole := by
  induction ms generalizing c with
  | nil =>
      cases h
      exact hc
  | cons m ms ih =>
      obtain ⟨c₁, h₁, h₂⟩ := Option.bind_eq_some_iff.mp h
      exact ih (whole_move hc h₁ (hms m List.mem_cons_self)) h₂ fun m hm => hms m (List.mem_cons_of_mem _ hm)

theorem weight_run {ms : List (Move α)} (h : Runs.run (move capacity) ms c = some c')
    (hms : ∀ m ∈ ms, m.Harmless) (hfin : c.source.fin = true) :
    c'.source.fin = true ∧ c'.source.written = c.source.written ∧
      c'.weight + ms.countP Move.isHop ≤ c.weight := by
  induction ms generalizing c with
  | nil =>
      cases h
      exact ⟨hfin, rfl, le_rfl⟩
  | cons m ms ih =>
      obtain ⟨c₁, h₁, h₂⟩ := Option.bind_eq_some_iff.mp h
      obtain ⟨hfin₁, hwritten₁, hweight₁⟩ := weight_move h₁ (hms m List.mem_cons_self) hfin
      obtain ⟨hfin', hwritten', hweight'⟩ := ih h₂ (fun m hm => hms m (List.mem_cons_of_mem _ hm)) hfin₁
      refine ⟨hfin', hwritten'.trans hwritten₁, ?_⟩
      rw [List.countP_cons]
      omega

/-- **An unbroken chain with a finished source** has delivered everything or goes on. -/
theorem Sound.delivered_or_goesOn (hcap : 0 < capacity) (hc : c.Sound) (hwhole : c.Whole)
    (hfin : c.source.fin = true) :
    c.last.written = c.source.written ∧ c.last.fin = true ∨ GoesOn capacity c.source c.hops := by
  rcases Relay.Sound.goesOn hcap hc hwhole.1 hwhole.2 hfin with hall | hmore
  · have hend := Relay.Sound.fin_of_ended hc hall hfin
    exact .inl ⟨(Relay.Sound.complete hc hwhole.2 hend).1, hend⟩
  · exact .inr hmore

/-- In a whole chain with a finished source, harmless moves have at most two steps of each copy for each item
and for the end, and when no copy can go on everything has arrived, or the chain is stalled. -/
theorem delivers {ms : List (Move α)} (hcap : 0 < capacity) (hsound : c.Sound) (hwhole : c.Whole)
    (hfin : c.source.fin = true) (hms : ∀ m ∈ ms, m.Harmless)
    (h : Runs.run (move capacity) ms c = some c') :
    ms.countP Move.isHop ≤ 2 * c.hops.length * (c.source.written.length + 1) ∧
      (c'.last.written = c.source.written ∧ c'.last.fin = true ∨ GoesOn capacity c'.source c'.hops) := by
  obtain ⟨hfin', hwritten, hweight⟩ := weight_run h hms hfin
  have hbound : c.weight ≤ _ := Relay.Sound.weight_le hsound
  refine ⟨by omega, ?_⟩
  have hdone := (sound_run _ _ h hsound).delivered_or_goesOn hcap (whole_run hwhole h hms) hfin'
  rwa [hwritten] at hdone

end Chain

end Relay
