import Tuyau.Routes
import Tuyau.SequentialScans

/-! # Lookups one after another

The tunnels of a host share a cursor that starts at zero when the entry of the host is created and that
every iteration of a lookup increments.  Here lookups run one after another, of any hosts in any order,
while the open and closed connections stay as they are.  Only the lookups of a host move its cursor
(`serves_lookup`), so those of one host are a sequence of scans of its connections (`lookupAll_eq`), to
which the library of `SequentialScans` applies.

**`round_robin_exact`**: until the cursor has been incremented `2 ^ 64` times, each lookup of the host
returns the first open connection in cyclic order from the cursor; all of them together go round the
open connections in a fixed order, so that any two of these were returned equally often up to one. -/

namespace Tuyau

open AsciiText CyclicScan

/-- The route to one connection of an entry. -/
def HostRoutes.routeTo (e : HostRoutes) (conn : Connection) : Route :=
  .tunnel ⟨e.clientName, e.tlsMode, conn⟩

namespace RoutingTable

/-- Lookups one after another; the answers go with the hosts that were asked for. -/
def lookupAll (isOpen : Connection → Bool) :
    List Text → RoutingTable → List (Text × Option Route) × RoutingTable
  | [], t => ([], t)
  | host :: hosts, t =>
      let one := t.lookup isOpen host
      let rest := lookupAll isOpen hosts one.2
      ((host, one.1) :: rest.1, rest.2)

/-- The answers to the lookups of one host. -/
def answersAt (h : Text) (answers : List (Text × Option Route)) : List (Option Route) :=
  (answers.filter fun a => a.1 = h).map Prod.snd

/-- How often a lookup of `h` increments the cursor of its entry. -/
def increments (t : RoutingTable) (isOpen : Connection → Bool) (h : Text) : ℕ :=
  match t.upstream h with
  | some _ => 0
  | none =>
      match t.inner.lookup h with
      | none => 0
      | some e => if hn : 0 < e.conns.length then draws isOpen e.conns hn e.conns.length e.cursor else 0

/-- How often lookups one after another increment the cursor of `h`. -/
def incrementsAt (isOpen : Connection → Bool) (h : Text) : List Text → RoutingTable → ℕ
  | [], _ => 0
  | host :: hosts, t =>
      (if host = h then t.increments isOpen h else 0) + incrementsAt isOpen h hosts (t.lookup isOpen host).2

/-- Lookups of `h` go to the tunnels of the entry `e`. -/
structure Serves (t : RoutingTable) (h : Text) (e : HostRoutes) : Prop where
  upstream : t.upstream h = none
  entry : t.inner.lookup h = some e

variable {t : RoutingTable} {h : Text} {e : HostRoutes}

/-! ### One lookup -/

/-- A lookup adds and removes no entry, so it changes nothing about upstreams. -/
theorem upstream_lookup (t : RoutingTable) (isOpen : Connection → Bool) (host h : Text) :
    (t.lookup isOpen host).2.upstream h = t.upstream h := by
  have hkeys : ∀ name, name ∈ (t.lookup isOpen host).2.inner ↔ name ∈ t.inner := by
    intro name
    obtain ⟨cursor, hc⟩ := lookup_lookup t isOpen host name
    rw [← AList.lookup_isSome, ← AList.lookup_isSome, hc, Option.isSome_map]
  obtain ⟨inner, hsame⟩ : SameConfig t (t.lookup isOpen host).2 := sameConfig_lookup
  have hnamed : ∀ name, (t.lookup isOpen host).2.named name ↔ t.named name := by
    intro name
    rw [named, named, hkeys, hsame]
  have hwildcard : ∀ name, (t.lookup isOpen host).2.wildcardUpstream name = t.wildcardUpstream name := by
    intro name
    rw [wildcardUpstream, wildcardUpstream, if_congr (hnamed name) rfl rfl, hsame]
  rw [upstream, upstream, hwildcard, hsame]

section

variable (isOpen : Connection → Bool) (hs : t.Serves h e) (hn : 0 < e.conns.length)
include hs hn

/-- A lookup of the host is a scan of its connections. -/
theorem lookup_eq_scan :
    t.lookup isOpen h =
      ((scan isOpen e.conns hn e.conns.length e.cursor).1.map e.routeTo,
        { t with
          inner := AList.insert h
            { e with cursor := (scan isOpen e.conns hn e.conns.length e.cursor).2 } t.inner }) := by
  unfold lookup
  simp only [hs.upstream, hs.entry, dif_pos hn]
  rfl

theorem increments_eq_draws :
    t.increments isOpen h = draws isOpen e.conns hn e.conns.length e.cursor := by
  unfold increments
  simp only [hs.upstream, hs.entry, dif_pos hn]

/-- Only a lookup of the host itself moves its cursor. -/
theorem serves_lookup (host : Text) :
    (t.lookup isOpen host).2.Serves h (if host = h then
      { e with cursor := (scan isOpen e.conns hn e.conns.length e.cursor).2 } else e) := by
  refine ⟨by rw [upstream_lookup, hs.upstream], ?_⟩
  split_ifs with hh
  · subst hh
    rw [lookup_eq_scan isOpen hs hn]
    exact AList.lookup_insert _
  · rw [← hs.entry, lookup]
    split
    · rfl
    · split
      · rfl
      · split_ifs
        · exact AList.lookup_insert_ne fun heq => hh heq.symm
        · rfl

/-! ### Many lookups -/

/-- The lookups of the host are scans of its connections one after another. -/
theorem lookupAll_eq (hosts : List Text) :
    answersAt h (lookupAll isOpen hosts t).1 =
        (scans isOpen e.conns hn (hosts.count h) e.cursor).map (Option.map e.routeTo) ∧
      incrementsAt isOpen h hosts t = totalDraws isOpen e.conns hn (hosts.count h) e.cursor := by
  induction hosts generalizing t e with
  | nil => exact ⟨rfl, rfl⟩
  | cons host hosts ih =>
      have hnext : (t.lookup isOpen host).2.Serves h _ := serves_lookup isOpen hs hn host
      rw [lookupAll, incrementsAt]
      by_cases hh : host = h
      · subst hh
        rw [if_pos rfl] at hnext
        obtain ⟨hanswers, hincrements⟩ := ih hnext hn
        rw [List.count_cons_self, scans, totalDraws, if_pos rfl, hincrements,
          increments_eq_draws isOpen hs hn]
        refine ⟨?_, rfl⟩
        rw [answersAt, List.filter_cons_of_pos (by simp), List.map_cons]
        exact congrArg₂ List.cons (by rw [lookup_eq_scan isOpen hs hn]) hanswers
      · rw [if_neg hh] at hnext
        obtain ⟨hanswers, hincrements⟩ := ih hnext hn
        rw [List.count_cons_of_ne hh, if_neg hh, hincrements, Nat.zero_add]
        refine ⟨?_, rfl⟩
        rw [answersAt, List.filter_cons_of_neg (by simpa using hh)]
        exact hanswers

/-- Until the cursor wraps, it counts its increments. -/
theorem serves_lookupAll (hosts : List Text)
    (hwrap : e.cursor.toNat + incrementsAt isOpen h hosts t < 2 ^ 64) :
    ∃ cursor, (lookupAll isOpen hosts t).2.Serves h { e with cursor } ∧
      cursor.toNat = e.cursor.toNat + incrementsAt isOpen h hosts t := by
  induction hosts generalizing t e with
  | nil => exact ⟨e.cursor, hs, rfl⟩
  | cons host hosts ih =>
      have hnext : (t.lookup isOpen host).2.Serves h _ := serves_lookup isOpen hs hn host
      rw [incrementsAt] at hwrap
      by_cases hh : host = h
      · rw [if_pos hh] at hnext
        rw [if_pos hh, increments_eq_draws isOpen hs hn] at hwrap
        obtain ⟨-, hcursor, -⟩ := @scan_step _ isOpen e.conns hn e.cursor (by omega)
        obtain ⟨cursor, hserves, heq⟩ := ih hnext hn (by dsimp only; omega)
        refine ⟨cursor, hserves, ?_⟩
        rw [incrementsAt, if_pos hh, increments_eq_draws isOpen hs hn, heq]
        dsimp only
        omega
      · rw [if_neg hh] at hnext
        rw [if_neg hh, Nat.zero_add] at hwrap
        obtain ⟨cursor, hserves, heq⟩ := ih hnext hn hwrap
        exact ⟨cursor, hserves, by rw [incrementsAt, if_neg hh, Nat.zero_add, heq]⟩

end

theorem incrementsAt_append (isOpen : Connection → Bool) (h : Text) (before after : List Text)
    (t : RoutingTable) :
    incrementsAt isOpen h (before ++ after) t =
      incrementsAt isOpen h before t + incrementsAt isOpen h after (lookupAll isOpen before t).2 := by
  induction before generalizing t with
  | nil => exact (Nat.zero_add _).symm
  | cons host before ih =>
      rw [List.cons_append, incrementsAt, incrementsAt, ih, Nat.add_assoc]
      rfl

/-! ### Round robin -/

/-- What lookups one after another return for a host with the entry `e`. -/
structure RoundRobin (isOpen : Connection → Bool) (t : RoutingTable) (h : Text) (e : HostRoutes)
    (hosts : List Text) : Prop where
  /-- Each lookup returns the first open connection from the cursor, and none if all are closed. -/
  first : ∀ before after, hosts = before ++ h :: after →
    ∃ cursor, (lookupAll isOpen before t).2.inner.lookup h = some { e with cursor } ∧
      ((lookupAll isOpen before t).2.lookup isOpen h).1 =
        ((e.conns.rotate cursor.toNat).find? isOpen).map e.routeTo ∧
      (((lookupAll isOpen before t).2.lookup isOpen h).1 = none ↔ ∀ conn ∈ e.conns, isOpen conn = false)
  /-- The lookups go round the open connections. -/
  cyclic : answersAt h (lookupAll isOpen hosts t).1 = (List.range (hosts.count h)).map fun i =>
    let opens := (e.conns.rotate e.cursor.toNat).filter isOpen
    opens[i % opens.length]?.map e.routeTo
  /-- Any two open connections are returned equally often, up to one. -/
  fair : ∀ c ∈ e.conns, ∀ d ∈ e.conns, isOpen c = true → isOpen d = true →
    (answersAt h (lookupAll isOpen hosts t).1).count (some (e.routeTo c)) ≤
      (answersAt h (lookupAll isOpen hosts t).1).count (some (e.routeTo d)) + 1

theorem routeTo_injective (e : HostRoutes) : Function.Injective e.routeTo := by
  intro c d h
  exact (RouteEntry.mk.inj (Route.tunnel.inj h)).2.2

/-- **Sequential round-robin is exact**, from any state of the cursor and with lookups of other hosts in
between, as long as the cursor has not wrapped. -/
theorem round_robin_exact {isOpen : Connection → Bool} (hup : t.upstream h = none)
    (he : t.inner.lookup h = some e) (hn : 0 < e.conns.length) (hnodup : e.conns.Nodup) (hosts : List Text)
    (hwrap : e.cursor.toNat + incrementsAt isOpen h hosts t < 2 ^ 64) :
    RoundRobin isOpen t h e hosts := by
  have hs : t.Serves h e := ⟨hup, he⟩
  obtain ⟨hanswers, hincrements⟩ := lookupAll_eq isOpen hs hn hosts
  have htotal : e.cursor.toNat + totalDraws isOpen e.conns hn (hosts.count h) e.cursor < 2 ^ 64 :=
    hincrements ▸ hwrap
  refine ⟨?_, ?_, ?_⟩
  · rintro before after rfl
    rw [incrementsAt_append, incrementsAt, if_pos rfl] at hwrap
    obtain ⟨cursor, hserves, hcursor⟩ := serves_lookupAll isOpen hs hn before (by omega)
    rw [increments_eq_draws isOpen hserves hn] at hwrap
    obtain ⟨hanswer, -, -⟩ := @scan_step _ isOpen e.conns hn cursor (by dsimp only at hwrap; omega)
    rw [passing, List.head?_filter] at hanswer
    have hlookup := congrArg Prod.fst (lookup_eq_scan isOpen hserves hn)
    dsimp only at hlookup
    rw [hanswer] at hlookup
    refine ⟨cursor, hserves.entry, hlookup, ?_⟩
    rw [hlookup, Option.map_eq_none_iff, List.find?_eq_none]
    simp only [List.mem_rotate, Bool.not_eq_true]
  · rw [hanswers, scans_eq htotal, List.map_map]
    rfl
  · intro c hc d hd hopen hopen'
    have hinj : Function.Injective (Option.map e.routeTo) := Option.map_injective (routeTo_injective e)
    rw [hanswers, ← Option.map_some (f := e.routeTo), ← Option.map_some (f := e.routeTo),
      List.count_map_of_injective _ _ hinj, List.count_map_of_injective _ _ hinj]
    exact count_scans_le hnodup htotal hc hopen hd hopen'

/-- A host with three tunnels, the second of which is closed, and a host that nobody serves. -/
theorem round_robin_exact_three :
    let e : HostRoutes := ⟨['a'], .terminated, [.nth 0, .nth 1, .nth 2], 0⟩
    let t : RoutingTable := { fromConfig [] [] with inner := AList.insert ['x'] e ∅ }
    RoundRobin (fun conn => conn.stableId ≠ 1) t ['x'] e [['x'], ['y'], ['x'], ['x']] := by
  intro e t
  exact round_robin_exact rfl rfl (by decide) (by decide) _ (by decide)

end RoutingTable

end Tuyau
