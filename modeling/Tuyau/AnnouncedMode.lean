import Tuyau.DynamicMode
import Tuyau.Installation
import Tuyau.Lookups
import Tuyau.PublicStatic

/-! # The mode announced to a tunnel client

The first frame on a stream to a tunnel client says which TLS mode the server applied to the bytes that
follow.  `open_tunnel_stream` takes it from the routing entry, where `install` stored the mode of the
grant, while the mode that was applied is decided by `is_terminated` and `is_offload`, at other moments.

Both are determined by the calls that were made of the table: the stored mode by the last grant that named
the host (`grantedMode`), and the applied one by the last list of terminated hosts (`provisioned`), the
offload hosts of the configuration and, for a name that nothing else names, its wildcard upstream.
`announced_mode_iff` says which sequences of calls make every header right, whenever the public connections
put their questions: those in which a host that tunnels serve has been terminated, and its plaintext piped, at
every earlier moment exactly as the grant says (`ModesAgree`).  In static mode this is always so
(`announces_static`). -/

namespace Tuyau

open AsciiText RoutingTable Server

/-- The mode that the server applies to a public connection, by the answers it gets on its way. -/
def Visit.appliedMode (v : Visit) (sni : Text) : TlsMode :=
  if v.terminatedAt.routes.isTerminated sni then
    if v.offloadAt.routes.isOffload sni then .tlsOffload else .terminated
  else .passthrough

/-- A header announces passthrough exactly ahead of the client's TLS bytes, and offload exactly on the
offload path. -/
def Announces (header : DataStreamHeader) (path : Path) : Prop :=
  (header.mode = .passthrough ↔ path = .rawTls) ∧ (header.mode = .tlsOffload ↔ path = .offload)

/-- The mode that a path belongs to. -/
def Path.mode : Path → TlsMode
  | .rawTls => .passthrough
  | .offload => .tlsOffload
  | .bytePipe => .terminated
  | .http _ _ => .terminated

/-! ### What the calls of the table decide -/

namespace RoutingTable

/-- The mode in which a call grants a host, if it does; of a host named twice it is the last one. -/
def Op.modeFor (host : Text) : Op → Option TlsMode
  | .install g _ => g.hostnames.reverse.lookup host
  | _ => none

/-- The mode in which a host was granted last. -/
def grantedMode (host : Text) (calls : List Op) : Option TlsMode :=
  calls.foldl (fun mode op => (op.modeFor host).or mode) none

/-- TLS is terminated for a host after some calls. -/
def TerminatedBy (cfg : ServerConfig) (calls : List Op) (host : Text) : Prop :=
  toAsciiLowercase host ∈ provisioned cfg calls ∨
    Unnamed cfg calls (toAsciiLowercase host) ∧
      ∃ up, wildcardOf cfg (toAsciiLowercase host) = some up ∧ up.tlsMode.terminates = true

/-- The plaintext of a host is piped after some calls. -/
def OffloadBy (cfg : ServerConfig) (calls : List Op) (host : Text) : Prop :=
  toAsciiLowercase host ∈ offloadHosts cfg ∨
    Unnamed cfg calls (toAsciiLowercase host) ∧
      ∃ up, wildcardOf cfg (toAsciiLowercase host) = some up ∧ up.tlsMode = .tlsOffload

/-- Tunnels serve a host after some calls, and no upstream takes it. -/
def Tunnels (cfg : ServerConfig) (calls : List Op) (host : Text) : Prop :=
  (after cfg calls).upstream host = none ∧ host ∈ (after cfg calls).inner

/-- Whenever tunnels serve a host, the mode in which it was granted last is the one that was applied to it
at every moment until then. -/
def ModesAgree (cfg : ServerConfig) (calls : List Op) (host : Text) : Prop :=
  ∀ later, later <+: calls → Tunnels cfg later host →
    ∃ mode, grantedMode host later = some mode ∧ ∀ earlier, earlier <+: later →
      (mode.terminates = true ↔ TerminatedBy cfg earlier host) ∧
        (mode.terminates = true → (mode = .tlsOffload ↔ OffloadBy cfg earlier host))

variable {cfg : ServerConfig} {calls : List Op} {h : Text}

theorem isTerminated_iff_calls : (after cfg calls).isTerminated h = true ↔ TerminatedBy cfg calls h := by
  unfold isTerminated TerminatedBy
  simp only [Bool.or_eq_true, decide_eq_true_eq, Option.any_eq_true, wildcardUpstream_after,
    (sets_after cfg calls).1, List.mem_toFinset, and_assoc, exists_and_left]

theorem isOffload_iff_calls : (after cfg calls).isOffload h = true ↔ OffloadBy cfg calls h := by
  unfold isOffload OffloadBy
  simp only [Bool.or_eq_true, decide_eq_true_eq, Option.any_eq_true, wildcardUpstream_after,
    offload_after, List.mem_toFinset, and_assoc, exists_and_left]

/-- An entry never stays without connections. -/
theorem conns_after (cfg : ServerConfig) (calls : List Op) :
    Entries (fun _ e => e.conns ≠ []) (after cfg calls).inner := by
  induction calls using List.reverseRecOn with
  | nil => exact entries_empty
  | append_singleton calls op ih =>
      rw [after_concat]
      apply Entries.call _ _ _ ih
      · exact fun g c _ p _ e _ => HostRoutes.give_ne_nil
      · exact fun stableId h e _ hne => hne
      · exact fun h e cursor hne => hne

/-- An entry has the mode in which its host was granted last. -/
theorem grantedMode_after {e : HostRoutes} (he : (after cfg calls).inner.lookup h = some e) :
    grantedMode h calls = some e.tlsMode := by
  induction calls using List.reverseRecOn generalizing e with
  | nil => cases he
  | append_singleton calls op ih =>
      rw [after_concat] at he
      unfold grantedMode
      rw [List.foldl_concat]
      cases op with
      | install g c =>
          change ((after cfg calls).install g.hostnames g.clientName g.balance c).2.inner.lookup h = some e at he
          rw [inner_install] at he
          by_cases hin : h ∈ g.hostnames.map Prod.fst
          · obtain ⟨e', he', -, hmode, -⟩ := lookup_installLoop (n := g.clientName) (b := g.balance) (c := c)
              g.hostnames (after cfg calls).inner [] hin
            rw [he] at he'
            obtain rfl := Option.some.inj he'
            rw [Op.modeFor, hmode]
            rfl
          · rw [lookup_installLoop_of_notMem hin] at he
            have hnone : g.hostnames.reverse.lookup h = none := by
              rw [List.lookup_eq_none_iff]
              intro p hp
              rw [bne_iff_ne]
              rintro rfl
              exact hin (List.mem_map_of_mem (List.mem_reverse.mp hp))
            rw [Op.modeFor, hnone]
            exact ih he
      | removeConn stableId =>
          obtain ⟨e₀, he₀, -, rfl⟩ := lookup_removeConn.mp he
          have hmode := ih he₀
          exact hmode
      | kick clientName => exact ih (lookup_kick.mp he).1
      | setTerminated full => exact ih he
      | lookup isOpen host =>
          change ((after cfg calls).lookup isOpen host).2.inner.lookup h = some e at he
          obtain ⟨cursor, hcursor⟩ := lookup_lookup (after cfg calls) isOpen host h
          rw [hcursor] at he
          obtain ⟨e₀, he₀, rfl⟩ := Option.map_eq_some_iff.mp he
          have hmode := ih he₀
          exact hmode

/-- Where tunnels serve a host, a lookup finds one of them if all are open. -/
theorem exists_tunnel (h₀ : Tunnels cfg calls h) :
    ∃ r, ((after cfg calls).lookup (fun _ => true) h).1 = some (.tunnel r) := by
  obtain ⟨hup, hin⟩ := h₀
  obtain ⟨e, he⟩ := Option.isSome_iff_exists.mp (AList.lookup_isSome.mpr hin)
  have hpos : 0 < e.conns.length := List.length_pos_iff.mpr (conns_after cfg calls h e he)
  refine ⟨⟨e.clientName, e.tlsMode, CyclicScan.pick e.conns hpos e.cursor⟩, lookup_eq_tunnel_iff.mpr ?_⟩
  refine ⟨hup, e, he, ⟨hpos, 0, hpos, ?_, rfl, ?_⟩, rfl, rfl⟩
  · change CyclicScan.pick e.conns hpos (e.cursor + 0) = _
    rw [UInt64.add_zero]
  · exact fun i hi => absurd hi i.not_lt_zero

end RoutingTable

/-! ### The header of a stream -/

section

variable {sni : Text} {peer : SocketAddr} {needsClientCert : Bool} {v : Visit} {path : Path}
  {d : Destination}

theorem announces_iff {header : DataStreamHeader} : Announces header path ↔ header.mode = path.mode := by
  unfold Announces
  cases path <;> cases header.mode <;> simp [Path.mode]

/-- What is forwarded takes a path of the mode applied. -/
theorem mode_of_forward (h : .forward path d ∈ serveSni sni peer needsClientCert v) :
    path.mode = v.appliedMode sni := by
  unfold Visit.appliedMode
  rcases mem_serveSni h with ⟨hterm, rfl, -⟩ | ⟨hterm, alpn, cert, -, -, -, hcase⟩
  · rw [hterm]
    rfl
  · rw [hterm]
    rcases hcase with ⟨hoff, rfl, -⟩ | ⟨hoff, ⟨client, exchange, rfl⟩, -⟩ | ⟨hoff, rfl, -⟩
    · rw [hoff]
      rfl
    · rw [hoff]
      rfl
    · rw [hoff]
      rfl

/-- What is forwarded goes to what one of the lookups found. -/
theorem asked_of_forward (h : .forward path d ∈ serveSni sni peer needsClientCert v) :
    ∃ s, v.Asks s ∧ FoundAt sni peer s d := by
  rcases mem_serveSni h with ⟨-, -, hf⟩ | ⟨-, alpn, cert, -, -, -, hcase⟩
  · exact ⟨_, .inl rfl, hf⟩
  · rcases hcase with ⟨-, -, hf⟩ | ⟨-, -, r, hr, hf⟩ | ⟨-, -, -, -, hf⟩
    · exact ⟨_, .inl rfl, hf⟩
    · exact ⟨_, .inr ⟨r, hr, rfl⟩, hf⟩
    · exact ⟨_, .inl rfl, hf⟩

/-- The header of a tunnel that was found carries the mode stored with the entry of the host. -/
theorem stored_of_foundAt {s : Server} {route : RouteEntry} {header : DataStreamHeader}
    (h : FoundAt sni peer s (.tunnel route header)) :
    ∃ e, s.routes.inner.lookup sni = some e ∧ header.mode = e.tlsMode := by
  obtain ⟨hfind, hheader⟩ := h
  obtain ⟨-, e, he, -, hmode, -, -⟩ := lookup_eq_tunnel hfind
  refine ⟨e, he, ?_⟩
  rw [hheader]
  exact hmode

end

/-! ### Public connections during a sequence of calls -/

/-- The questions of a public connection are put at moments of one sequence of calls, in their order: first
whether TLS is terminated, then whether the plaintext is piped, and after that the others. -/
def Visit.Along (cfg : ServerConfig) (calls : List Op) (v : Visit) : Prop :=
  ∃ first second, first <+: second ∧ v.terminatedAt.routes = after cfg first ∧
    v.offloadAt.routes = after cfg second ∧
    ∀ s, s = v.upstreamAt ∨ v.Asks s →
      ∃ third, second <+: third ∧ third <+: calls ∧ s.routes = after cfg third

/-- Every header on a stream to a tunnel for `sni` announces what the server did, whatever public connection
opened it during the calls. -/
def HeadersRight (cfg : ServerConfig) (calls : List Op) (sni : Text) : Prop :=
  ∀ peer needsClientCert v path route header, Visit.Along cfg calls v →
    .forward path (.tunnel route header) ∈ handlePublic needsClientCert peer (.record (some sni)) v →
    Announces header path

/-- A mode is the one applied exactly if it terminates TLS and pipes the plaintext as the answers say. -/
theorem eq_appliedMode_iff {v : Visit} {sni : Text} {mode : TlsMode} :
    mode = v.appliedMode sni ↔
      (mode.terminates = true ↔ v.terminatedAt.routes.isTerminated sni = true) ∧
        (mode.terminates = true → (mode = .tlsOffload ↔ v.offloadAt.routes.isOffload sni = true)) := by
  unfold Visit.appliedMode
  cases v.terminatedAt.routes.isTerminated sni <;> cases v.offloadAt.routes.isOffload sni <;>
    cases mode <;> decide

/-- A server with a given table, none of whose connections is closed. -/
def Server.withRoutes (routes : RoutingTable) : Server := { start {} with routes }

/-- A connection with HTTP/1.1 that asks its first two questions at a moment and all others later. -/
def Visit.between (earlier later : Server) : Visit where
  terminatedAt := earlier
  tls := .established (some .http11) false
  offloadAt := earlier
  upstreamAt := later
  pipe := ⟨later, true⟩
  requests := [⟨⟨later, true⟩, ⟨false, false, false⟩, true⟩]

section

variable {cfg : ServerConfig} {calls earlier later : List Op} {sni : Text}

/-- Such a connection opens a stream on the tunnel that its lookups find, whatever mode was applied. -/
theorem forward_between (peer : SocketAddr) {s s' : Server} {r : RouteEntry} (h : s'.find sni = some (.tunnel r)) :
    ∃ path, .forward path (.tunnel r ⟨sni, peer.toText, r.tlsMode⟩) ∈
      handlePublic false peer (.record (some sni)) (.between s s') := by
  change ∃ path, _ ∈ serveSni sni peer false (.between s s')
  unfold serveSni
  split_ifs with hterm
  · change ∃ path, _ ∈ .handshake :: serveTerminated sni peer false (.between s s') (some .http11) false
    unfold serveTerminated
    cases hoff : s.routes.isOffload sni with
    | true => exact ⟨.offload, by simp [Visit.between, hoff, pipeTo, h, openTunnelStream]⟩
    | false =>
        exact ⟨.http .direct .h1Roundtrip, by simp [Visit.between, hoff, serveHttp, proxy, h, openTunnelStream,
          serveRequest, exchangeWith, Request.isWebsocketConnect, Client.of]⟩
  · exact ⟨.rawTls, by simp [Visit.between, pipeTo, h, openTunnelStream]⟩

theorem along_between (hearlier : earlier <+: later) (hlater : later <+: calls) :
    Visit.Along cfg calls (.between (.withRoutes (after cfg earlier)) (.withRoutes (after cfg later))) := by
  refine ⟨earlier, earlier, List.prefix_rfl, rfl, rfl, ?_⟩
  rintro s (rfl | rfl | ⟨r, hr, rfl⟩)
  · exact ⟨later, hearlier, hlater, rfl⟩
  · exact ⟨later, hearlier, hlater, rfl⟩
  · obtain rfl := List.mem_singleton.mp hr
    exact ⟨later, hearlier, hlater, rfl⟩

/-- **When the announced mode is the applied mode**, for all public connections during a sequence of calls:
exactly if the grants, the lists of terminated hosts and the configuration agree on the host. -/
theorem announced_mode_iff (cfg : ServerConfig) (calls : List Op) (sni : Text) :
    HeadersRight cfg calls sni ↔ ModesAgree cfg calls sni := by
  constructor
  · intro hright later hlater htunnels
    obtain ⟨r, hr⟩ := exists_tunnel htunnels
    obtain ⟨-, e, he, -, hmode, -, -⟩ := lookup_eq_tunnel hr
    refine ⟨e.tlsMode, grantedMode_after he, fun earlier hearlier => ?_⟩
    -- a connection that asks at the earlier moment and looks up at the later one
    let s := Server.withRoutes (after cfg earlier)
    let s' := Server.withRoutes (after cfg later)
    have hfind : s'.find sni = some (.tunnel r) := hr
    obtain ⟨path, hpath⟩ := forward_between (.v4 192 0 2 7 50000) (s := s) hfind
    have hann := hright _ _ _ _ _ _ (along_between hearlier hlater) hpath
    rw [announces_iff, mode_of_forward hpath, eq_appliedMode_iff] at hann
    have hterm : s.routes.isTerminated sni = true ↔ _ := isTerminated_iff_calls (h := sni)
    have hoff : s.routes.isOffload sni = true ↔ _ := isOffload_iff_calls (h := sni)
    rw [hmode] at hann
    exact ⟨hann.1.trans hterm, fun hm => (hann.2 hm).trans hoff⟩
  · rintro hagree peer needsClientCert v path route header ⟨first, second, hsecond, hterm, hoff, hlast⟩ h
    have hserve : .forward path (.tunnel route header) ∈ serveSni sni peer needsClientCert v := h
    obtain ⟨s, hs, hfound⟩ := asked_of_forward hserve
    obtain ⟨third, hthird, hcalls, hroutes⟩ := hlast s (.inr hs)
    obtain ⟨e, he, hstored⟩ := stored_of_foundAt hfound
    obtain ⟨hup, -⟩ := lookup_eq_tunnel hfound.1
    rw [hroutes] at he hup
    have htunnels : Tunnels cfg third sni := ⟨hup, AList.lookup_isSome.mp (by rw [he]; rfl)⟩
    obtain ⟨mode, hmode, hboth⟩ := hagree third hcalls htunnels
    rw [grantedMode_after he] at hmode
    obtain rfl := Option.some.inj hmode
    rw [announces_iff, mode_of_forward hserve, hstored, eq_appliedMode_iff, hterm, hoff,
      isTerminated_iff_calls, isOffload_iff_calls]
    exact ⟨(hboth first (hsecond.trans hthird)).1, (hboth second hthird).2⟩

end

/-- One terminated host, of some client. -/
def terminatedX : ServerConfig where
  hostnames := [{ host := ['x'], client := ['a'], tlsMode := .terminated }]

/-- A second host is provisioned, and a tunnel is granted the first one. -/
def provisionedCalls : List Op :=
  [.setTerminated [['X'], ['y']], .install ⟨['a'], .lastWriteWins, [(['x'], .terminated)]⟩ (.nth 0)]

theorem moments_provisionedCalls {past : List Op} (h : past <+: provisionedCalls) :
    past = [] ∨ past = provisionedCalls.take 1 ∨ past = provisionedCalls := by
  have hin : past ∈ provisionedCalls.inits := (List.mem_inits _ _).mpr h
  simp only [provisionedCalls, List.inits, List.map_cons, List.map_nil, List.mem_cons, List.not_mem_nil,
    or_false] at hin
  exact hin

/-- All headers for a host that is configured, provisioned and granted as terminated are right, and there
are such headers. -/
theorem announced_mode_provisioned :
    HeadersRight terminatedX provisionedCalls ['x'] ∧ Tunnels terminatedX provisionedCalls ['x'] := by
  have hprovisioned : ∀ calls, calls <+: provisionedCalls → ['x'] ∈ provisioned terminatedX calls := by
    intro calls hcalls
    rcases moments_provisionedCalls hcalls with rfl | rfl | rfl
    · decide
    · decide
    · decide
  refine ⟨(announced_mode_iff terminatedX provisionedCalls ['x']).mpr ?_, by decide, by decide⟩
  intro later hlater htunnels
  have hmode : grantedMode ['x'] later = some .terminated := by
    obtain ⟨e, he⟩ := Option.isSome_iff_exists.mp (AList.lookup_isSome.mpr htunnels.2)
    rcases moments_provisionedCalls hlater with rfl | rfl | rfl
    · cases he
    · cases he
    · rfl
  refine ⟨.terminated, hmode, fun earlier hearlier => ⟨?_, fun _ => ?_⟩⟩
  · exact iff_of_true rfl (.inl (hprovisioned earlier (hearlier.trans hlater)))
  · refine iff_of_false (by decide) ?_
    rintro (hin | ⟨hunnamed, -⟩)
    · exact absurd hin (by decide)
    · exact hunnamed.2.2.1 (hprovisioned earlier (hearlier.trans hlater))

/-- A public connection that meets one server and makes one request. -/
def Visit.still (s : Server) (alpn : Option Alpn) (request : Request) : Visit where
  terminatedAt := s
  tls := .established alpn false
  offloadAt := s
  upstreamAt := s
  pipe := ⟨s, true⟩
  requests := [⟨⟨s, true⟩, request, true⟩]

/-- A tunnel granted a host in terminated mode. -/
def grantedTerminated : List Action :=
  comeUp (.nth 0) ⟨Vector.replicate 32 0, ['a']⟩ ⟨['a'], .lastWriteWins, [(['x'], .terminated)]⟩

/-- The header for a host that is granted as terminated but not provisioned: the raw TLS bytes of the
client are announced as terminated. -/
theorem announced_mode_unprovisioned :
    ∃ s, Runs.run (step fun _ _ => true) grantedTerminated (start {}) = some s ∧
      ∃ route header, .forward .rawTls (.tunnel route header) ∈
          handlePublic false (.v4 192 0 2 7 50000) (.record (some ['x']))
            (.still s none ⟨false, false, false⟩) ∧
        header.mode = .terminated ∧ ¬ Announces header .rawTls := by
  have hobs : (Runs.run (step fun _ _ => true) grantedTerminated (start {})).map
      (fun s => handlePublic false (.v4 192 0 2 7 50000) (.record (some ['x']))
        (.still s none ⟨false, false, false⟩)) =
      some [.forward .rawTls (.tunnel ⟨['a'], .terminated, .nth 0⟩
        ⟨['x'], "192.0.2.7:50000".toList, .terminated⟩)] := by decide
  obtain ⟨s, hs, hout⟩ := Option.map_eq_some_iff.mp hobs
  refine ⟨s, hs, ⟨['a'], .terminated, .nth 0⟩, ⟨['x'], "192.0.2.7:50000".toList, .terminated⟩, ?_, rfl, ?_⟩
  · rw [hout]
    exact List.mem_cons_self
  · intro hann
    exact absurd (hann.1.mpr rfl) (by decide)

/-! ### Static mode -/

section

variable {cfg : ServerConfig} {as : List Action} {sni : Text} {peer : SocketAddr} {needsClientCert : Bool}
  {v : Visit} {path : Path}

theorem Visit.Static.asks (hv : v.Static cfg as) {s : Server} (hs : v.Asks s) : StaticDuring cfg as s := by
  rcases hs with rfl | ⟨r, hr, rfl⟩
  · exact hv.pipe
  · exact hv.requests r hr

variable (hcfg : cfg.Accepted) (hd : cfg.HostsDistinct) (hv : v.Static cfg as)
include hcfg hd hv

/-- In static mode the mode applied is that of the entry that routes the host. -/
theorem appliedMode_static {entry : ConfigEntry} (hentry : cfg.routingEntry sni = some entry) :
    v.appliedMode sni = entry.tlsMode := by
  obtain ⟨past, -, hterminated⟩ := hv.terminatedAt
  obtain ⟨past', -, hoffload⟩ := hv.offloadAt
  have hterm := isTerminated_static hd hcfg.targets (static_table hcfg hterminated) (h := sni)
  have hoff := isOffload_static hd hcfg.targets (static_table hcfg hoffload) (h := sni)
  rw [hentry, Option.any_some] at hterm hoff
  unfold Visit.appliedMode
  rw [hterm, hoff]
  cases entry.tlsMode <;> rfl

/-- **In static mode every header announces the mode applied.** -/
theorem announces_static {route : RouteEntry} {header : DataStreamHeader}
    (h : .forward path (.tunnel route header) ∈ serveSni sni peer needsClientCert v) :
    Announces header path := by
  obtain ⟨s, hs, hfound⟩ := asked_of_forward h
  obtain ⟨e, he, hstored⟩ := stored_of_foundAt hfound
  obtain ⟨past, -, hs⟩ := hv.asks hs
  obtain ⟨entry, hentry, -, hmode⟩ := routingEntry_of_lookup hcfg hd hs he
  rw [announces_iff, mode_of_forward h, appliedMode_static hcfg hd hv hentry, hstored]
  exact hmode.symm

end

end Tuyau
