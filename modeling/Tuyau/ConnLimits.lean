import Tuyau.CountMap
import Tuyau.Net
import Tuyau.Runs

/-! # The caps on public connections

The accept loop of the public listener hands a connection to a handler only while two caps have room.
The global one is a semaphore with a permit for each connection that may be handled; the other counts
the connections of each source address in a map and refuses an address that is at its share.  A
connection that is refused by the second gives the permit of the first back.  A handler holds both
permits and drops them when it ends, that of the address first, so for a moment it holds the global
one only; the drops of different handlers and the accepts may come in any order.

`Listener` is the state of the loop with the permits its handlers hold.  `Balanced` ties the numbers to
the handlers: the permits add up and the map counts the live handlers by address.  Every step keeps it
(`balanced_step`), and **`caps_hold`** reads off what it means: the caps hold in every state of every
run, the map has no entry too many, an accept is admitted exactly if both caps have room, and one that
is shed changes nothing. -/

namespace Tuyau

/-- The share of one address, derived from the global cap. -/
def maxConnsPerIp (global : ℕ) : ℕ := max (global / 8) 16

/-- The counts of the connections by source address. -/
structure PerIpLimiter where
  maxPerIp : ℕ
  counts : AssocMap IpAddr ℕ := ∅

namespace PerIpLimiter

/-- The count of an address; a missing one is put into the map as zero. -/
def entry (limiter : PerIpLimiter) (ip : IpAddr) : ℕ × PerIpLimiter :=
  match limiter.counts.lookup ip with
  | some c => (c, limiter)
  | none => (0, { limiter with counts := AList.insert ip 0 limiter.counts })

/-- Reserve a slot for an address, unless it is at the cap. -/
def tryAcquire (limiter : PerIpLimiter) (ip : IpAddr) : Bool × PerIpLimiter :=
  let (c, limiter) := limiter.entry ip
  if c ≥ limiter.maxPerIp then (false, limiter)
  else (true, { limiter with counts := AList.insert ip (c + 1) limiter.counts })

/-- Drop a permit of an address; `none` if the decrement underflows. -/
def dropPermit (limiter : PerIpLimiter) (ip : IpAddr) : Option PerIpLimiter :=
  match limiter.counts.lookup ip with
  | none => some limiter
  | some 0 => none
  | some (c + 1) =>
      if c = 0 then some { limiter with counts := AList.erase ip limiter.counts }
      else some { limiter with counts := AList.insert ip c limiter.counts }

end PerIpLimiter

/-- The accept loop and the handlers it has spawned. -/
structure Listener where
  permits : ℕ
  perIp : PerIpLimiter
  /-- The source addresses of the handlers that hold both permits. -/
  live : List IpAddr := []
  /-- The handlers that have dropped the permit of their address but not the global one. -/
  ending : ℕ := 0

namespace Listener

/-- The most permits a semaphore can have on a 64-bit machine; `Semaphore::new` panics above it. -/
def maxPermits : ℕ := (UInt64.size - 1) >>> 3

/-- The state in which the loop starts. -/
def start (maxConns : ℕ) : Option Listener :=
  if maxConns ≤ maxPermits then
    some { permits := maxConns, perIp := { maxPerIp := maxConnsPerIp maxConns } }
  else none

/-- One accepted connection: whether it is admitted, and the state after it. -/
def accept (s : Listener) (peer : SocketAddr) : Bool × Listener :=
  match s.permits with
  | 0 => (false, s)
  | permits + 1 =>
      match s.perIp.tryAcquire peer.ip with
      -- the permit goes out of scope and is given back
      | (false, perIp) => (false, { s with permits := permits + 1, perIp })
      | (true, perIp) => (true, { s with permits, perIp, live := peer.ip :: s.live })

/-- What can happen: a connection is accepted, or a handler drops one of its permits. -/
inductive Action where
  | accept (peer : SocketAddr)
  | dropIpPermit (handler : ℕ)
  | dropPermit

/-- Perform an action; `none` if no handler can do so, or if a decrement underflows. -/
def step (s : Listener) : Action → Option Listener
  | .accept peer => some (s.accept peer).2
  | .dropIpPermit handler =>
      match s.live[handler]? with
      | none => none
      | some ip =>
          (s.perIp.dropPermit ip).map fun perIp =>
            { s with perIp, live := s.live.eraseIdx handler, ending := s.ending + 1 }
  | .dropPermit =>
      match s.ending with
      | 0 => none
      | ending + 1 => some { s with permits := s.permits + 1, ending }

/-- The connections being handled. -/
def handled (s : Listener) : ℕ := s.live.length + s.ending

/-- The caps hold, the counts are those of the live handlers, and the next accept respects them. -/
structure CapsHold (maxConns : ℕ) (s : Listener) : Prop where
  handled : s.handled ≤ maxConns
  count : ∀ ip, (s.perIp.counts.lookup ip).getD 0 = s.live.count ip
  perIp : ∀ ip, s.live.count ip ≤ maxConnsPerIp maxConns
  keys : ∀ ip, ip ∈ s.perIp.counts ↔ ip ∈ s.live
  nonzero : ∀ ip, s.perIp.counts.lookup ip ≠ some 0
  noUnderflow : ∀ ip ∈ s.live, s.perIp.dropPermit ip ≠ none
  admitted : ∀ peer, (s.accept peer).1 = true ↔
    s.handled < maxConns ∧ s.live.count peer.ip < maxConnsPerIp maxConns
  shed : ∀ peer, (s.accept peer).1 = false → (s.accept peer).2 = s

end Listener

/-! ### The limiter -/

namespace PerIpLimiter

open CountMap

variable {limiter : PerIpLimiter} {l : List IpAddr} {ip : IpAddr}

/-- Of a limiter that counts the list `l`: a slot is reserved exactly if the address is below the cap,
and otherwise nothing changes. -/
theorem tryAcquire_eq (h : Counts limiter.counts l) (hcap : 0 < limiter.maxPerIp) (ip : IpAddr) :
    limiter.tryAcquire ip =
      if l.count ip < limiter.maxPerIp then
        (true, { limiter with counts := AList.insert ip (l.count ip + 1) limiter.counts })
      else (false, limiter) := by
  have hlookup := h ip
  rw [tryAcquire, entry]
  split_ifs at hlookup with hin
  · rw [hlookup]
    dsimp only
    by_cases hroom : l.count ip < limiter.maxPerIp
    · rw [if_neg (Nat.not_le.mpr hroom), if_pos hroom]
    · rw [if_pos (Nat.not_lt.mp hroom), if_neg hroom]
  · -- a new address: the zero that was put into the map is overwritten
    have hzero : l.count ip = 0 := List.count_eq_zero.mpr hin
    rw [hlookup, hzero]
    dsimp only
    rw [if_neg (Nat.not_le.mpr hcap), if_pos hcap, AList.insert_insert]

/-- Dropping the permit of a counted address takes it off the list and never underflows. -/
theorem dropPermit_eq (h : Counts limiter.counts (ip :: l)) :
    ∃ counts, limiter.dropPermit ip = some { limiter with counts } ∧ Counts counts l := by
  have hlookup := h ip
  rw [if_pos List.mem_cons_self, List.count_cons_self] at hlookup
  rw [dropPermit, hlookup]
  dsimp only
  split_ifs with hlast
  · exact ⟨_, rfl, h.erase (List.count_eq_zero.mp hlast)⟩
  · exact ⟨_, rfl, h.tail (List.count_pos_iff.mp (Nat.pos_of_ne_zero hlast))⟩

end PerIpLimiter

namespace Listener

open CountMap

/-! ### What every step keeps -/

/-- The permits and the counts are those of the handlers. -/
structure Balanced (maxConns : ℕ) (s : Listener) : Prop where
  permits : s.permits + s.handled = maxConns
  cap : s.perIp.maxPerIp = maxConnsPerIp maxConns
  counts : Counts s.perIp.counts s.live
  perIp : ∀ ip, s.live.count ip ≤ maxConnsPerIp maxConns

variable {maxConns : ℕ} {s s' : Listener}

theorem maxConnsPerIp_pos (global : ℕ) : 0 < maxConnsPerIp global :=
  lt_of_lt_of_le (by decide) (le_max_right _ 16)

theorem balanced_start (h : start maxConns = some s) : Balanced maxConns s := by
  rw [start] at h
  split_ifs at h
  obtain rfl := Option.some.inj h
  exact ⟨rfl, rfl, counts_empty, fun ip => Nat.zero_le _⟩

/-- An accept is admitted exactly if both caps have room, and else changes nothing. -/
theorem accept_eq (hs : Balanced maxConns s) (peer : SocketAddr) :
    s.accept peer =
      if s.handled < maxConns ∧ s.live.count peer.ip < maxConnsPerIp maxConns then
        (true, { s with
          permits := s.permits - 1
          perIp := { s.perIp with
            counts := AList.insert peer.ip (s.live.count peer.ip + 1) s.perIp.counts }
          live := peer.ip :: s.live })
      else (false, s) := by
  have hpermits := hs.permits
  have hcap : 0 < s.perIp.maxPerIp := hs.cap ▸ maxConnsPerIp_pos maxConns
  rw [accept]
  cases hp : s.permits with
  | zero => rw [if_neg (by omega)]
  | succ permits =>
      rw [PerIpLimiter.tryAcquire_eq hs.counts hcap]
      by_cases hroom : s.live.count peer.ip < s.perIp.maxPerIp
      · rw [if_pos hroom, if_pos ⟨by omega, hs.cap ▸ hroom⟩]
        rfl
      · rw [if_neg hroom, if_neg fun h => hroom (hs.cap ▸ h.2)]
        dsimp only
        rw [← hp]

theorem balanced_accept (hs : Balanced maxConns s) (peer : SocketAddr) :
    Balanced maxConns (s.accept peer).2 := by
  rw [accept_eq hs]
  split_ifs with hroom
  · have hpermits := hs.permits
    refine ⟨?_, hs.cap, hs.counts.cons peer.ip, fun ip => ?_⟩
    · simp only [handled, List.length_cons] at hpermits hroom ⊢
      omega
    · dsimp only
      by_cases hip : peer.ip = ip
      · rw [← hip, List.count_cons_self]
        exact hroom.2
      · rw [List.count_cons_of_ne hip]
        exact hs.perIp ip
  · exact hs

theorem balanced_step {a : Action} (hs : Balanced maxConns s) (h : s.step a = some s') :
    Balanced maxConns s' := by
  cases a with
  | accept peer =>
      obtain rfl := Option.some.inj h
      exact balanced_accept hs peer
  | dropIpPermit handler =>
      rw [step] at h
      cases hip : s.live[handler]? with
      | none =>
          rw [hip] at h
          cases h
      | some ip =>
          obtain ⟨hlt, rfl⟩ := List.getElem?_eq_some_iff.mp hip
          have hperm : (s.live[handler] :: s.live.eraseIdx handler).Perm s.live :=
            List.getElem_cons_eraseIdx_perm hlt
          obtain ⟨counts, hdrop, hcounts⟩ := PerIpLimiter.dropPermit_eq (hs.counts.perm hperm.symm)
          rw [hip] at h
          dsimp only at h
          rw [hdrop] at h
          obtain rfl := Option.some.inj h
          refine ⟨?_, hs.cap, hcounts, fun ip => ?_⟩
          · have hpermits := hs.permits
            have hlen := hperm.length_eq
            simp only [handled, List.length_cons] at hpermits hlen ⊢
            omega
          · refine le_trans ?_ (hs.perIp ip)
            exact (List.eraseIdx_sublist s.live handler).count_le ip
  | dropPermit =>
      rw [step] at h
      cases hending : s.ending with
      | zero =>
          rw [hending] at h
          cases h
      | succ ending =>
          rw [hending] at h
          obtain rfl := Option.some.inj h
          refine ⟨?_, hs.cap, hs.counts, hs.perIp⟩
          have hpermits := hs.permits
          simp only [handled, hending] at hpermits ⊢
          omega

/-! ### The caps -/

theorem capsHold_of_balanced (hs : Balanced maxConns s) : CapsHold maxConns s := by
  have hpermits := hs.permits
  refine ⟨by omega, hs.counts.getD, hs.perIp, fun ip => hs.counts.mem_iff, hs.counts.ne_zero, ?_, ?_, ?_⟩
  · intro ip hip hnone
    obtain ⟨counts, hdrop, -⟩ :=
      PerIpLimiter.dropPermit_eq (hs.counts.perm (List.perm_cons_erase hip))
    rw [hdrop] at hnone
    cases hnone
  · intro peer
    rw [accept_eq hs]
    split_ifs with hroom
    · exact iff_of_true rfl hroom
    · exact iff_of_false (by simp) hroom
  · intro peer hshed
    rw [accept_eq hs] at hshed ⊢
    split_ifs at hshed ⊢ with hroom
    rfl

/-- **The connection caps hold over every run.** -/
theorem caps_hold {s₀ : Listener} {actions : List Action} (hstart : start maxConns = some s₀)
    (hrun : Runs.run step actions s₀ = some s) : CapsHold maxConns s := by
  refine capsHold_of_balanced (Runs.run_invariant (P := Balanced maxConns) ?_ ?_ hrun)
  · exact balanced_start hstart
  · exact fun s a s' hs h => balanced_step hs h

/-- A listener for one connection: a second one is shed, the first ends, and a third is admitted. -/
theorem caps_hold_one :
    let peer : SocketAddr := .v4 192 0 2 1 4433
    ∃ s₀ s, start 1 = some s₀ ∧
      Runs.run step [.accept peer, .accept peer, .dropIpPermit 0, .dropPermit, .accept peer] s₀ = some s ∧
      s.live = [peer.ip] ∧ CapsHold 1 s := by
  intro peer
  have hstart : start 1 = some { permits := 1, perIp := { maxPerIp := 16 } } := if_pos (by decide)
  obtain ⟨s, hrun, hlive⟩ : ∃ s, Runs.run step
      [.accept peer, .accept peer, .dropIpPermit 0, .dropPermit, .accept peer]
      { permits := 1, perIp := { maxPerIp := 16 } } = some s ∧ s.live = [peer.ip] := ⟨_, rfl, rfl⟩
  exact ⟨_, s, hstart, hrun, hlive, caps_hold hstart hrun⟩

end Listener

end Tuyau
