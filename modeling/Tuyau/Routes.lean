import Tuyau.AssocMap
import Tuyau.Config
import Tuyau.CyclicScan

/-! # The routing table

`RoutingTable` maps a hostname to what serves its public traffic.  It has three parts with
different lives: the local upstreams and the tunnel hostnames of the configuration, fixed by
`fromConfig`; the sets of hostnames the server terminates TLS for, of which `setTerminated`
replaces one; and the map `inner` of the hostnames that tunnels serve at the moment, which
`install`, `removeConn` and `kick` change and whose cursors `lookup` advances.

The configuration's keys are stored in lower case and asked in lower case.  `inner` is keyed by
the hostnames as the grants spell them, and `lookup` asks it for the host as the public client
spelled it.

A connection handle is identified for ever by its `serial`; its `stableId` is what the code
compares, and is only unique among connections that are still held.  Whether a connection is
known closed is not part of the table: `lookup` takes it as the test `isOpen`.

Each operation has one lemma that says what it does to the entry of one host
(`lookup_removeConn`, `lookup_kick`, `lookup_install_cons`) and one rule `Entries.*` that says
when it keeps a property of all entries. -/

namespace Tuyau

open AsciiText

/-- A QUIC connection of a tunnel client. -/
structure Connection where
  serial : ℕ
  stableId : ℕ
  remoteAddress : SocketAddr
deriving DecidableEq

/-- The `i`-th of a row of connections, all from one address. -/
def Connection.nth (i : ℕ) : Connection := ⟨i, i, .v4 192 0 2 1 4433⟩

/-- The connection chosen to serve one public connection, and what goes with it. -/
structure RouteEntry where
  clientName : Text
  tlsMode : TlsMode
  conn : Connection
deriving DecidableEq

/-- Where a local upstream listens. -/
inductive UpstreamTarget where
  | tcp (addr : SocketAddr)
  | unix (path : PathBuf)
deriving DecidableEq

/-- Where the traffic of a hostname goes. -/
inductive Route where
  | tunnel (entry : RouteEntry)
  | localTo (target : UpstreamTarget)
deriving DecidableEq

structure LocalUpstream where
  target : UpstreamTarget
  tlsMode : TlsMode
deriving DecidableEq

/-- The tunnels that serve one hostname, all of one client. -/
structure HostRoutes where
  clientName : Text
  tlsMode : TlsMode
  conns : List Connection
  cursor : UInt64
deriving DecidableEq

structure RoutingTable where
  inner : AssocMap Text HostRoutes
  locals : AssocMap Text LocalUpstream
  tunnelHosts : Finset Text
  terminated : Finset Text
  offload : Finset Text

/-- The keys a lower-case host matches, most specific first. -/
def hostPatterns (host : Text) : List Text :=
  [host] ++
    (match splitOnce '.' host with
      | some (_, parent) => ['*' :: '.' :: parent]
      | none => []) ++ [['*']]

/-- The target of an upstream entry; one with neither address nor socket has none. -/
def UpstreamEntry.target (u : UpstreamEntry) : Option UpstreamTarget :=
  match u.localSocket, u.localAddr with
  | some path, _ => some (.unix path)
  | none, some addr => some (.tcp addr)
  | none, none => none

/-- The key and value of an upstream entry in the table. -/
def UpstreamEntry.localUpstream (u : UpstreamEntry) : Option (Text × LocalUpstream) :=
  u.target.map fun target => (toAsciiLowercase u.host, ⟨target, u.tlsMode⟩)

namespace RoutingTable

/-- The lower-case hosts of the entries whose mode passes a test. -/
def hostsWith (test : TlsMode → Bool) (hostnames : List HostnameEntry)
    (upstreams : List UpstreamEntry) : List Text :=
  (hostnames.filter fun h => test h.tlsMode).map (fun h => toAsciiLowercase h.host) ++
    (upstreams.filter fun u => test u.tlsMode).map (fun u => toAsciiLowercase u.host)

/-- The table of a configuration, before any tunnel connects. -/
def fromConfig (hostnames : List HostnameEntry) (upstreams : List UpstreamEntry) : RoutingTable where
  inner := ∅
  locals := AssocMap.collect (upstreams.filterMap UpstreamEntry.localUpstream)
  tunnelHosts := (hostnames.map fun h => toAsciiLowercase h.host).toFinset
  terminated := (hostsWith TlsMode.terminates hostnames upstreams).toFinset
  offload := (hostsWith (· = .tlsOffload) hostnames upstreams).toFinset

/-! ### Questions -/

/-- Some exact entry names the lower-case host. -/
def named (t : RoutingTable) (host : Text) : Prop :=
  host ∈ t.locals ∨ host ∈ t.tunnelHosts ∨ host ∈ t.terminated ∨ host ∈ t.inner

instance (t : RoutingTable) (host : Text) : Decidable (t.named host) :=
  inferInstanceAs (Decidable (_ ∨ _ ∨ _ ∨ _))

/-- The `*.domain` or `*` upstream of a lower-case host that no exact entry names. -/
def wildcardUpstream (t : RoutingTable) (host : Text) : Option LocalUpstream :=
  if t.named host then none
  else ((hostPatterns host).drop 1).findSome? fun pattern => t.locals.lookup pattern

/-- Whether the server completes the TLS handshake for `host`. -/
def isTerminated (t : RoutingTable) (host : Text) : Bool :=
  let host := toAsciiLowercase host
  decide (host ∈ t.terminated) || (t.wildcardUpstream host).any fun up => up.tlsMode.terminates

/-- Whether the plaintext of `host` is piped without HTTP parsing. -/
def isOffload (t : RoutingTable) (host : Text) : Bool :=
  let host := toAsciiLowercase host
  decide (host ∈ t.offload) || (t.wildcardUpstream host).any fun up => up.tlsMode = .tlsOffload

/-- Whether `host` goes to a local upstream rather than to a tunnel. -/
def routesToUpstream (t : RoutingTable) (host : Text) : Bool :=
  let host := toAsciiLowercase host
  decide (host ∈ t.locals) || (t.wildcardUpstream host).isSome

/-- The upstream that serves a host, exact or by pattern. -/
def upstream (t : RoutingTable) (host : Text) : Option LocalUpstream :=
  let lowercase := toAsciiLowercase host
  (t.locals.lookup lowercase).or (t.wildcardUpstream lowercase)

/-- Resolve a host: an upstream if it has one, else the next open tunnel of its entry. -/
def lookup (t : RoutingTable) (isOpen : Connection → Bool) (host : Text) :
    Option Route × RoutingTable :=
  match t.upstream host with
  | some up => (some (.localTo up.target), t)
  | none =>
      match t.inner.lookup host with
      | none => (none, t)
      | some entry =>
          if hn : 0 < entry.conns.length then
            let (conn, cursor) := CyclicScan.scan isOpen entry.conns hn entry.conns.length entry.cursor
            (conn.map fun conn => .tunnel ⟨entry.clientName, entry.tlsMode, conn⟩,
              { t with inner := AList.insert host { entry with cursor } t.inner })
          else (none, t)

/-! ### Changes -/

/-- Replace the whole set of terminated hosts. -/
def setTerminated (t : RoutingTable) (full : List Text) : RoutingTable :=
  { t with terminated := (full.map toAsciiLowercase).toFinset }

end RoutingTable

/-- The entry of a host nobody serves yet. -/
def HostRoutes.vacant (clientName : Text) (tlsMode : TlsMode) : HostRoutes :=
  ⟨clientName, tlsMode, [], 0⟩

/-- Give an entry to a connection of a client: the entry left, and whom it displaced. -/
def HostRoutes.give (entry : HostRoutes) (clientName : Text) (tlsMode : TlsMode) (balance : Balance)
    (conn : Connection) : HostRoutes × List Connection :=
  -- another client's connections all go; the host now belongs to the new client
  let evicted := if entry.clientName ≠ clientName then entry.conns else []
  let conns := if entry.clientName ≠ clientName then [] else entry.conns
  match balance with
  | .lastWriteWins =>
      (⟨clientName, tlsMode, [conn], entry.cursor⟩,
        evicted ++ conns.filter fun c => c.stableId ≠ conn.stableId)
  | .roundRobin =>
      if conns.any fun c => c.stableId = conn.stableId then
        (⟨clientName, tlsMode, conns, entry.cursor⟩, evicted)
      else (⟨clientName, tlsMode, conns ++ [conn], entry.cursor⟩, evicted)

namespace RoutingTable

/-- The loop of `install` over the hosts of a grant. -/
def installLoop (clientName : Text) (balance : Balance) (conn : Connection) :
    List (Text × TlsMode) → AssocMap Text HostRoutes → List Connection →
    List Connection × AssocMap Text HostRoutes
  | [], inner, displaced => (displaced, inner)
  | (host, tlsMode) :: hosts, inner, displaced =>
      let entry := (inner.lookup host).getD (.vacant clientName tlsMode)
      let given := entry.give clientName tlsMode balance conn
      installLoop clientName balance conn hosts (AList.insert host given.1 inner)
        (displaced ++ given.2)

/-- The hosts at which the loop of `install` finds another client and takes over. -/
def takeovers (clientName : Text) (balance : Balance) (conn : Connection) :
    List (Text × TlsMode) → AssocMap Text HostRoutes → List Text
  | [], _ => []
  | (host, tlsMode) :: hosts, inner =>
      let entry := (inner.lookup host).getD (.vacant clientName tlsMode)
      (if entry.clientName ≠ clientName then [host] else []) ++
        takeovers clientName balance conn hosts
          (AList.insert host (entry.give clientName tlsMode balance conn).1 inner)

/-- Install the routes of a connection; the connections it displaced are returned. -/
def install (t : RoutingTable) (hosts : List (Text × TlsMode)) (clientName : Text)
    (balance : Balance) (conn : Connection) : List Connection × RoutingTable :=
  if hosts = [] then ([], t)
  else
    let done := installLoop clientName balance conn hosts t.inner []
    (done.1, { t with inner := done.2 })

/-- Remove a connection from all hosts, dropping hosts left with none. -/
def removeConn (t : RoutingTable) (stableId : ℕ) : RoutingTable :=
  { t with
    inner := AssocMap.retain (fun _ entry =>
      let conns := entry.conns.filter fun c => c.stableId ≠ stableId
      if conns = [] then none else some { entry with conns }) t.inner }

/-- Remove every host of a client; its connections are returned, each stable id once. -/
def kick (t : RoutingTable) (clientName : Text) : List Connection × RoutingTable :=
  (AssocMap.dedupOn Connection.stableId [] (t.inner.entries.flatMap fun e =>
      if e.2.clientName = clientName then e.2.conns else []),
    { t with
      inner := AssocMap.retain (fun _ entry =>
        if entry.clientName = clientName then none else some entry) t.inner })

/-! ### The entry of one host -/

variable {t : RoutingTable} {h n : Text} {e e' : HostRoutes}

/-- What `removeConn` leaves of an entry: its other connections, if there are any. -/
theorem lookup_removeConn {stableId : ℕ} :
    (t.removeConn stableId).inner.lookup h = some e' ↔
      ∃ e, t.inner.lookup h = some e ∧ (e.conns.filter fun c => c.stableId ≠ stableId) ≠ [] ∧
        e' = { e with conns := e.conns.filter fun c => c.stableId ≠ stableId } := by
  rw [removeConn, AssocMap.lookup_retain, Option.bind_eq_some_iff]
  constructor
  · rintro ⟨e, he, hs⟩
    dsimp only at hs
    split_ifs at hs with hnil
    exact ⟨e, he, hnil, (Option.some.inj hs).symm⟩
  · rintro ⟨e, he, hnil, rfl⟩
    exact ⟨e, he, if_neg hnil⟩

/-- `kick` drops the entries of one client and keeps the others as they are. -/
theorem lookup_kick :
    (t.kick n).2.inner.lookup h = some e ↔ t.inner.lookup h = some e ∧ e.clientName ≠ n := by
  rw [kick, AssocMap.lookup_retain, Option.bind_eq_some_iff]
  constructor
  · rintro ⟨e₀, he, hs⟩
    split_ifs at hs with hn
    obtain rfl := Option.some.inj hs
    exact ⟨he, hn⟩
  · rintro ⟨he, hn⟩
    exact ⟨e, he, if_neg hn⟩

/-- The connections of the entries of one client, each as often as it occurs. -/
theorem mem_conns_of_client {c : Connection} :
    c ∈ (t.inner.entries.flatMap fun e => if e.2.clientName = n then e.2.conns else []) ↔
      ∃ h e, t.inner.lookup h = some e ∧ e.clientName = n ∧ c ∈ e.conns := by
  rw [List.mem_flatMap]
  constructor
  · rintro ⟨⟨h, e⟩, he, hc⟩
    split_ifs at hc with hn
    · exact ⟨h, e, AList.mem_lookup_iff.mpr he, hn, hc⟩
    · simp at hc
  · rintro ⟨h, e, he, hn, hc⟩
    exact ⟨⟨h, e⟩, AList.mem_lookup_iff.mp he, by rwa [if_pos hn]⟩

/-- `lookup` changes no entry but for its cursor. -/
theorem lookup_lookup (t : RoutingTable) (isOpen : Connection → Bool) (host h : Text) :
    ∃ cursor : HostRoutes → UInt64, (t.lookup isOpen host).2.inner.lookup h =
      (t.inner.lookup h).map fun e => { e with cursor := cursor e } := by
  have hself : ∃ cursor : HostRoutes → UInt64, t.inner.lookup h =
      (t.inner.lookup h).map fun e => { e with cursor := cursor e } :=
    ⟨HostRoutes.cursor, Option.map_id'.symm⟩
  rw [lookup]
  split
  · exact hself
  · split
    · exact hself
    · next entry hentry =>
        split_ifs with hn
        · dsimp only
          rw [AssocMap.lookup_insert_eq_ite]
          split_ifs with hh
          · subst hh
            rw [hentry]
            exact ⟨fun _ => _, rfl⟩
          · exact hself
        · exact hself

/-- A tunnel is found by `lookup` only in the entry of the host, where no upstream serves it. -/
theorem lookup_eq_tunnel {isOpen : Connection → Bool} {r : RouteEntry}
    (hl : (t.lookup isOpen h).1 = some (.tunnel r)) :
    t.upstream h = none ∧ ∃ e, t.inner.lookup h = some e ∧ r.clientName = e.clientName ∧
      r.tlsMode = e.tlsMode ∧ r.conn ∈ e.conns ∧ isOpen r.conn = true := by
  rw [lookup] at hl
  split at hl
  · cases hl
  · next hup =>
      split at hl
      · cases hl
      · next e he =>
          split_ifs at hl with hn
          obtain ⟨c, hc, hr⟩ := Option.map_eq_some_iff.mp hl
          obtain rfl := Route.tunnel.inj hr
          exact ⟨hup, e, he, rfl, rfl, CyclicScan.scan_mem hc⟩

theorem lookup_eq_localTo {isOpen : Connection → Bool} {target : UpstreamTarget} :
    (t.lookup isOpen h).1 = some (.localTo target) ↔
      ∃ up, t.upstream h = some up ∧ up.target = target := by
  rw [lookup]
  split
  · next up hup => simp [hup]
  · next hup =>
      split
      · simp [hup]
      · split_ifs
        · simp [hup]
        · simp [hup]

/-- Of a host that an exact entry names, only the two sets decide the mode. -/
theorem mode_of_named (hnamed : t.named (toAsciiLowercase h)) :
    t.isTerminated h = decide (toAsciiLowercase h ∈ t.terminated) ∧
      t.isOffload h = decide (toAsciiLowercase h ∈ t.offload) := by
  have hnone : t.wildcardUpstream (toAsciiLowercase h) = none := if_pos hnamed
  unfold isTerminated isOffload
  simp [hnone]

/-! ### Properties of all entries -/

/-- Every host with an entry, together with it, has the property `P`. -/
def Entries (P : Text → HostRoutes → Prop) (inner : AssocMap Text HostRoutes) : Prop :=
  ∀ h e, inner.lookup h = some e → P h e

variable {P : Text → HostRoutes → Prop}

theorem entries_empty : Entries P ∅ := by
  intro h e he
  rw [AList.lookup_empty] at he
  cases he

/-- `install` keeps a property that giving an entry to its connection keeps or creates. -/
theorem Entries.installLoop {clientName : Text} {balance : Balance} {conn : Connection} :
    ∀ {hosts : List (Text × TlsMode)} {inner : AssocMap Text HostRoutes} {displaced : List Connection},
      (∀ p ∈ hosts, ∀ e, P p.1 e ∨ e = .vacant clientName p.2 →
        P p.1 (e.give clientName p.2 balance conn).1) →
      Entries P inner → Entries P (installLoop clientName balance conn hosts inner displaced).2
  | [], _, _, _, hP => hP
  | (host, tlsMode) :: hosts, inner, displaced, hgive, hP => by
      rw [RoutingTable.installLoop]
      refine Entries.installLoop (fun p hp => hgive p (List.mem_cons_of_mem _ hp)) ?_
      intro h e he
      rw [AssocMap.lookup_insert_eq_ite] at he
      split_ifs at he with hh
      · obtain rfl := Option.some.inj he
        rw [hh]
        refine hgive (host, tlsMode) List.mem_cons_self _ ?_
        cases hl : inner.lookup host with
        | none => exact .inr rfl
        | some e₀ => exact .inl (hP host e₀ hl)
      · exact hP h e he

theorem Entries.install {hosts : List (Text × TlsMode)} {clientName : Text} {balance : Balance}
    {conn : Connection}
    (hgive : ∀ p ∈ hosts, ∀ e, P p.1 e ∨ e = .vacant clientName p.2 →
      P p.1 (e.give clientName p.2 balance conn).1)
    (hP : Entries P t.inner) : Entries P (t.install hosts clientName balance conn).2.inner := by
  rw [RoutingTable.install]
  split_ifs with hnil
  · exact hP
  · exact Entries.installLoop hgive hP

theorem Entries.removeConn {stableId : ℕ}
    (hfilter : ∀ h e, P h e → (e.conns.filter fun c => c.stableId ≠ stableId) ≠ [] →
      P h { e with conns := e.conns.filter fun c => c.stableId ≠ stableId })
    (hP : Entries P t.inner) : Entries P (t.removeConn stableId).inner := by
  intro h e he
  obtain ⟨e₀, he₀, hne, rfl⟩ := lookup_removeConn.mp he
  exact hfilter h e₀ (hP h e₀ he₀) hne

theorem Entries.kick (hP : Entries P t.inner) : Entries P (t.kick n).2.inner :=
  fun h e he => hP h e (lookup_kick.mp he).1

theorem Entries.lookup {isOpen : Connection → Bool} {host : Text}
    (hcursor : ∀ h e cursor, P h e → P h { e with cursor }) (hP : Entries P t.inner) :
    Entries P (t.lookup isOpen host).2.inner := by
  intro h e he
  obtain ⟨cursor, hc⟩ := lookup_lookup t isOpen host h
  rw [hc] at he
  obtain ⟨e₀, he₀, rfl⟩ := Option.map_eq_some_iff.mp he
  exact hcursor h e₀ _ (hP h e₀ he₀)

/-! ### The parts that tunnels do not touch -/

/-- `t'` differs from `t` at most in the entries of the tunnels. -/
def SameConfig (t t' : RoutingTable) : Prop := ∃ inner, t' = { t with inner }

theorem SameConfig.trans {t₁ t₂ t₃ : RoutingTable} (h₁ : SameConfig t₁ t₂) (h₂ : SameConfig t₂ t₃) :
    SameConfig t₁ t₃ := by
  obtain ⟨inner, rfl⟩ := h₁
  obtain ⟨inner', rfl⟩ := h₂
  exact ⟨inner', rfl⟩

theorem sameConfig_install {hosts : List (Text × TlsMode)} {clientName : Text} {balance : Balance}
    {conn : Connection} : SameConfig t (t.install hosts clientName balance conn).2 := by
  rw [install]
  split_ifs
  · exact ⟨t.inner, rfl⟩
  · exact ⟨_, rfl⟩

theorem sameConfig_removeConn {stableId : ℕ} : SameConfig t (t.removeConn stableId) := ⟨_, rfl⟩

theorem sameConfig_kick : SameConfig t (t.kick n).2 := ⟨_, rfl⟩

theorem sameConfig_lookup {isOpen : Connection → Bool} {host : Text} :
    SameConfig t (t.lookup isOpen host).2 := by
  rw [lookup]
  split
  · exact ⟨t.inner, rfl⟩
  · split
    · exact ⟨t.inner, rfl⟩
    · split_ifs
      · exact ⟨_, rfl⟩
      · exact ⟨t.inner, rfl⟩

end RoutingTable

end Tuyau
