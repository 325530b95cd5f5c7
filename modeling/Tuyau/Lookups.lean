import Tuyau.Ownership

/-! # What a lookup finds

Two things about `lookup` on a host that tunnels serve.

*Lookups at the same time.*  Lookups of one host hold the lock for reading together and share its
cursor.  `lookupsInFlight` performs the loop iterations of any number of them in the order of a
schedule; a lookup by itself is the schedule that runs it alone (`lookup_alone`), and misses no open
connection (`lookup_eq_none_iff`).  But an iteration of one lookup moves the cursor under another, so
that a lookup may draw the same closed connection again and again:
`lookups_find_open_iff` says that no interleaving misses exactly when no connection of the entry is
closed.

*Upstreams and tunnels.*  The upstream of a host and its mode depend on it only up to letter case; a lookup
takes the next open connection of the entry with the spelling that was asked for, where no upstream
takes the host (`lookup_eq_tunnel_iff`, `exists_lookup_tunnel`). -/

namespace Tuyau

open AsciiText CyclicScan

namespace RoutingTable

/-! ### Lookups at the same time -/

/-- Lookups of the host of an entry, all begun at once, after the iterations of a schedule. -/
def lookupsInFlight (isOpen : Connection → Bool) (e : HostRoutes) (hn : 0 < e.conns.length)
    (schedule : List ℕ) : Shared Connection :=
  interleave isOpen e.conns hn (start e.conns e.cursor) schedule

/-- What a lookup that has made all its iterations returns. -/
def answer (e : HostRoutes) : Scanner Connection → Option Route
  | .found conn => some (.tunnel ⟨e.clientName, e.tlsMode, conn⟩)
  | .scanning _ => none

/-- `lookup` is the schedule that runs one lookup alone. -/
theorem lookup_alone {t : RoutingTable} {isOpen : Connection → Bool} {h : Text} {e : HostRoutes}
    (hup : t.upstream h = none) (he : t.inner.lookup h = some e) (hn : 0 < e.conns.length) (i : ℕ) :
    let s := lookupsInFlight isOpen e hn (List.replicate e.conns.length i)
    t.lookup isOpen h = (answer e (s.scanner i),
      { t with inner := AList.insert h { e with cursor := s.cursor } t.inner }) := by
  intro s
  have hstart : (start e.conns e.cursor).scanner i = .scanning e.conns.length := rfl
  have halone := @interleave_replicate _ isOpen e.conns hn i _ _ hstart
  have hcursor : s.cursor = (scan isOpen e.conns hn e.conns.length e.cursor).2 := halone.1
  have hscanner : s.scanner i = (scan isOpen e.conns hn e.conns.length e.cursor).1.elim
      (.scanning 0) .found := halone.2
  rw [hcursor, hscanner]
  simp only [lookup, hup, he, dif_pos hn]
  cases (scan isOpen e.conns hn e.conns.length e.cursor).1 with
  | none => rfl
  | some conn => rfl

/-- By itself, and while its cursor does not wrap, a lookup returns nothing only if all connections are
closed. -/
theorem lookup_eq_none_iff {t : RoutingTable} {isOpen : Connection → Bool} {h : Text} {e : HostRoutes}
    (hup : t.upstream h = none) (he : t.inner.lookup h = some e) (hn : 0 < e.conns.length)
    (hwrap : e.cursor.toNat + e.conns.length ≤ 2 ^ 64) :
    (t.lookup isOpen h).1 = none ↔ ∀ conn ∈ e.conns, isOpen conn = false := by
  unfold lookup
  simp only [hup, he, dif_pos hn, Option.map_eq_none_iff]
  exact scan_eq_none_iff_of_le hwrap

/-- In every interleaving, every lookup that has made its iterations returns an open connection of
the entry. -/
def LookupsFindOpen (isOpen : Connection → Bool) (e : HostRoutes) : Prop :=
  ∀ (hn : 0 < e.conns.length) (schedule : List ℕ) (i : ℕ), e.conns.length ≤ schedule.count i →
    ∃ conn ∈ e.conns, isOpen conn = true ∧
      answer e ((lookupsInFlight isOpen e hn schedule).scanner i) =
        some (.tunnel ⟨e.clientName, e.tlsMode, conn⟩)

/-- **When lookups at the same time never miss an open tunnel**: exactly when none of the connections
is closed.  The length of a vector is a machine word. -/
theorem lookups_find_open_iff {isOpen : Connection → Bool} {e : HostRoutes}
    (hlen : e.conns.length ≤ 2 ^ 64) (hopen : ∃ conn ∈ e.conns, isOpen conn = true) :
    LookupsFindOpen isOpen e ↔ ∀ conn ∈ e.conns, isOpen conn = true := by
  obtain ⟨conn₀, hconn₀, -⟩ := hopen
  have hn : 0 < e.conns.length := List.length_pos_of_mem hconn₀
  have hiff := @never_misses_iff _ isOpen e.conns hn hlen e.cursor
  constructor
  · intro hfind
    apply hiff.mp
    intro schedule i hcount
    obtain ⟨conn, -, -, hans⟩ := hfind hn schedule i hcount
    cases hs : (lookupsInFlight isOpen e hn schedule).scanner i with
    | found x => exact ⟨x, hs⟩
    | scanning left =>
        rw [hs] at hans
        cases hans
  · intro hall hn schedule i hcount
    obtain ⟨conn, hs⟩ := hiff.mpr hall schedule i hcount
    obtain ⟨hmem, hconn⟩ := interleave_found hs
    refine ⟨conn, hmem, hconn, ?_⟩
    unfold lookupsInFlight
    rw [hs]
    rfl

/-- With all of its connections open, three lookups of an entry find one each. -/
theorem lookups_find_open_two :
    LookupsFindOpen (fun _ => true) ⟨['a'], .terminated, [.nth 0, .nth 1], 5⟩ :=
  (lookups_find_open_iff (by decide) ⟨.nth 0, by decide, rfl⟩).mpr (fun _ _ => rfl)

/-- One of two connections is closed, and a second lookup draws the open one in between: the first
lookup draws the closed connection twice and returns nothing. -/
theorem lookups_miss_open :
    let isOpen : Connection → Bool := fun conn => conn.stableId = 1
    let e : HostRoutes := ⟨['a'], .terminated, [.nth 0, .nth 1], 0⟩
    (∃ conn ∈ e.conns, isOpen conn = true) ∧
      (∀ hn, answer e ((lookupsInFlight isOpen e hn [0, 1, 0]).scanner 0) = none) ∧
      ¬ LookupsFindOpen isOpen e := by
  intro isOpen e
  have hpos : 0 < e.conns.length := by decide
  have hmiss : answer e ((lookupsInFlight isOpen e hpos [0, 1, 0]).scanner 0) = none := by
    decide +revert
  refine ⟨⟨.nth 1, by decide, rfl⟩, fun _ => hmiss, ?_⟩
  intro hfind
  obtain ⟨conn, -, -, hans⟩ := hfind hpos [0, 1, 0] 0 (by decide)
  rw [hmiss] at hans
  cases hans

/-! ### Upstreams and tunnels -/

/-- Without an upstream of its own, a host is left to the wildcards. -/
theorem upstream_eq_wildcard {t : RoutingTable} {h : Text} (hlocal : toAsciiLowercase h ∉ t.locals) :
    t.upstream h = t.wildcardUpstream (toAsciiLowercase h) := by
  unfold upstream
  dsimp only
  rw [AList.lookup_eq_none.mpr hlocal]
  rfl

/-- The mode of a host depends on it only up to letter case. -/
theorem mode_congr {t : RoutingTable} {g h : Text} (hgh : toAsciiLowercase h = toAsciiLowercase g) :
    t.isTerminated h = t.isTerminated g ∧ t.isOffload h = t.isOffload g := by
  unfold isTerminated isOffload
  rw [hgh]
  exact ⟨rfl, rfl⟩

/-- A wildcard upstream takes a lower-case name: no exact entry names it, and one of its patterns is
an upstream. -/
def Covered (t : RoutingTable) (name : Text) : Prop :=
  ¬ t.named name ∧ ∃ pattern ∈ (hostPatterns name).drop 1, pattern ∈ t.locals

theorem wildcardUpstream_eq_none {t : RoutingTable} {name : Text} :
    t.wildcardUpstream name = none ↔ ¬ t.Covered name := by
  unfold wildcardUpstream Covered
  split_ifs with hnamed
  · simp [hnamed]
  · rw [List.findSome?_eq_none_iff]
    simp only [AList.lookup_eq_none, hnamed, not_false_eq_true, true_and, not_exists, not_and]

/-- The connection the next lookup takes: the first open one from the cursor on. -/
def Next (isOpen : Connection → Bool) (e : HostRoutes) (conn : Connection) : Prop :=
  ∃ hn : 0 < e.conns.length, ∃ j < e.conns.length,
    pick e.conns hn (e.cursor + UInt64.ofNat j) = conn ∧ isOpen conn = true ∧
      ∀ i < j, isOpen (pick e.conns hn (e.cursor + UInt64.ofNat i)) = false

/-- Where no upstream serves a host, a lookup takes the next connection of its entry. -/
theorem lookup_eq_tunnel_iff {t : RoutingTable} {isOpen : Connection → Bool} {h : Text} {r : RouteEntry} :
    (t.lookup isOpen h).1 = some (.tunnel r) ↔
      t.upstream h = none ∧ ∃ e, t.inner.lookup h = some e ∧ Next isOpen e r.conn ∧
        r.clientName = e.clientName ∧ r.tlsMode = e.tlsMode := by
  unfold lookup
  cases hup : t.upstream h with
  | some up => simp
  | none =>
      cases he : t.inner.lookup h with
      | none => simp
      | some e =>
          simp only [true_and, Option.some.injEq, exists_eq_left']
          split_ifs with hn
          · simp only [Option.map_eq_some_iff, scan_eq_some_iff, Route.tunnel.injEq]
            constructor
            · rintro ⟨conn, hnext, rfl⟩
              exact ⟨⟨hn, hnext⟩, rfl, rfl⟩
            · rintro ⟨⟨_, hnext⟩, hname, hmode⟩
              exact ⟨r.conn, hnext, by rw [← hname, ← hmode]⟩
          · constructor
            · intro hnone
              cases hnone
            · rintro ⟨⟨hn', -⟩, -⟩
              exact absurd hn' hn

/-- Where no upstream takes a host, a lookup by itself finds a connection of its entry if one is open, while
the cursor does not wrap. -/
theorem exists_lookup_tunnel {t : RoutingTable} {isOpen : Connection → Bool} {h : Text} {e : HostRoutes}
    (hup : t.upstream h = none) (he : t.inner.lookup h = some e)
    (hwrap : e.cursor.toNat + e.conns.length ≤ 2 ^ 64) (hopen : ∃ conn ∈ e.conns, isOpen conn = true) :
    ∃ r, (t.lookup isOpen h).1 = some (.tunnel r) ∧ r.conn ∈ e.conns := by
  obtain ⟨conn, hconn, hopen⟩ := hopen
  have hn : 0 < e.conns.length := List.length_pos_of_mem hconn
  cases hfound : (t.lookup isOpen h).1 with
  | none =>
      have hclosed := (lookup_eq_none_iff hup he hn hwrap).mp hfound conn hconn
      rw [hopen] at hclosed
      cases hclosed
  | some route =>
      cases route with
      | localTo target =>
          obtain ⟨up, hsome, -⟩ := lookup_eq_localTo.mp hfound
          rw [hup] at hsome
          cases hsome
      | tunnel r =>
          obtain ⟨-, e', he', -, -, hr, -⟩ := lookup_eq_tunnel hfound
          rw [he] at he'
          obtain rfl := Option.some.inj he'
          exact ⟨r, rfl, hr⟩

end RoutingTable

end Tuyau
