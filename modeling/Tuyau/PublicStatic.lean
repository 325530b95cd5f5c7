import Tuyau.HostEntries
import Tuyau.Public
import Tuyau.StaticMode

/-! # The public listener in static mode

In static mode nothing replaces the set of terminated hosts, so every table a public connection asks
is the one of the configuration with configured tunnels in it (`static_table`), and all its answers
are those of the entry that routes the host, whenever they are given.  `public_follows_entry` says
what this makes of a public connection, for each kind of entry, in a run of the server in which tunnels
connect and disconnect between any two of its questions.  A tunnel that gets its bytes is one that had
shown the token of the entry's client by the moment of the lookup that found it. -/

namespace Tuyau

open AsciiText RoutingTable

namespace Server

variable {cfg : ServerConfig} {s : Server}

/-- The server after the actions of a run in static mode: none of them replaces the terminated hosts. -/
def StaticAfter (cfg : ServerConfig) (past : List Action) (s : Server) : Prop :=
  Runs.run (step (staticAnswers cfg)) past (start cfg) = some s ∧
    ∀ domains, .setTerminatedDomains domains ∉ past

theorem sameConfig_run {as : List Action}
    (hrun : Runs.run (step (staticAnswers cfg)) as (start cfg) = some s)
    (hno : ∀ domains, .setTerminatedDomains domains ∉ as) :
    SameConfig (fromConfig cfg.hostnames cfg.upstreams) s.routes := by
  revert hno
  refine Runs.run_history (P := fun as s => (∀ domains, .setTerminatedDomains domains ∉ as) →
    SameConfig (fromConfig cfg.hostnames cfg.upstreams) s.routes) (fun _ => ⟨_, rfl⟩) ?_ hrun
  intro as s a s' hrun hs h hno
  have hs' := hs fun domains hin => hno domains (List.mem_append_left _ hin)
  rcases routes_step (inv_run hrun) h with heq | ⟨op, hop, -, hset⟩
  · rwa [heq]
  · refine hs'.trans (sameConfig_step hop ?_)
    rintro full rfl
    exact hno full (by simp [hset full rfl])

theorem static_table {past : List Action} (hcfg : cfg.Accepted) (hs : StaticAfter cfg past s) :
    StaticTable cfg s.routes := by
  obtain ⟨hrun, hno⟩ := hs
  exact ⟨sameConfig_run hrun hno, fun h e he => (configured_run hcfg.clients hrun h e he).entry⟩

end Server

open Server

/-- A destination that belongs to an entry: its own upstream, or a tunnel of its client that showed
this client's token in the past. -/
def Destination.Of (cfg : ServerConfig) (past : List Action) (entry : ConfigEntry) : Destination → Prop
  | .tunnel route _ => ∃ e, entry = .hostname e ∧ route.clientName = e.client ∧
      Presented cfg past route.conn e.client
  | .localTo target => ∃ u, entry = .upstream u ∧ u.target = some target

/-- The server at some moment of a run in static mode. -/
def Server.StaticDuring (cfg : ServerConfig) (as : List Action) (s : Server) : Prop :=
  ∃ past, past <+: as ∧ StaticAfter cfg past s

/-- All servers that a public connection asks are those of moments of one run in static mode. -/
structure Visit.Static (cfg : ServerConfig) (as : List Action) (v : Visit) : Prop where
  terminatedAt : StaticDuring cfg as v.terminatedAt
  offloadAt : StaticDuring cfg as v.offloadAt
  upstreamAt : StaticDuring cfg as v.upstreamAt
  pipe : StaticDuring cfg as v.pipe.seen
  requests : ∀ r ∈ v.requests, StaticDuring cfg as r.seen

/-- A public connection sends something to what one of its lookups found, and at the moment of that lookup
this belonged to the entry. -/
def Visit.SendsTo (cfg : ServerConfig) (as : List Action) (sni : Text) (peer : SocketAddr) (v : Visit)
    (entry : ConfigEntry) (d : Destination) : Prop :=
  ∃ past s, past <+: as ∧ StaticAfter cfg past s ∧ v.Asks s ∧ FoundAt sni peer s d ∧ d.Of cfg past entry

/-- The handshake succeeded with a protocol other than an ACME challenge, and with a client cert if
one is needed. -/
def Visit.Admitted (v : Visit) (needsClientCert : Bool) (alpn : Option Alpn) : Prop :=
  ∃ cert, v.tls = .established alpn cert ∧ alpn ≠ some .acmeTls1 ∧
    (needsClientCert = true → cert = true)

/-- What leaves the listener fits the entry that routes the host. -/
structure FollowsEntry (cfg : ServerConfig) (as : List Action) (sni : Text) (peer : SocketAddr) (v : Visit)
    (out : List Output) : Prop where
  passthrough : ∀ entry, cfg.routingEntry sni = some entry → entry.tlsMode = .passthrough →
    .handshake ∉ out ∧ .page502 ∉ out ∧
      ∀ path d, .forward path d ∈ out → path = .rawTls ∧ v.SendsTo cfg as sni peer entry d
  terminating : ∀ entry, cfg.routingEntry sni = some entry → entry.tlsMode.terminates = true →
    ∀ path d, .forward path d ∈ out → path ≠ .rawTls ∧ v.SendsTo cfg as sni peer entry d ∧
      ∃ alpn, v.Admitted cfg.clientCaFile.isSome alpn
  offload : ∀ entry, cfg.routingEntry sni = some entry → entry.tlsMode = .tlsOffload →
    .page502 ∉ out ∧ ∀ path d, .forward path d ∈ out → path = .offload
  terminatedUpstream : ∀ u, cfg.routingEntry sni = some (.upstream u) → u.tlsMode = .terminated →
    ∀ path d, .forward path d ∈ out → ∃ client exchange, path = .http client exchange
  terminatedHostname : ∀ e, cfg.routingEntry sni = some (.hostname e) → e.tlsMode = .terminated →
    ∀ path d, .forward path d ∈ out →
      (∃ client exchange, path = .http client exchange) ∨
        path = .bytePipe ∧ ∃ cert, v.tls = .established none cert
  unrouted : cfg.routingEntry sni = none → out = []

section

variable {cfg : ServerConfig} {sni : Text} {peer : SocketAddr} {s : Server} {past as : List Action}

/-- In static mode the tunnels of a host belong to the configured hostname that routes it. -/
theorem routingEntry_of_lookup (hcfg : cfg.Accepted) (hd : cfg.HostsDistinct)
    (hs : StaticAfter cfg past s) {e : HostRoutes} (he : s.routes.inner.lookup sni = some e) :
    ∃ entry, cfg.routingEntry sni = some (.hostname entry) ∧ entry.client = e.clientName ∧
      entry.tlsMode = e.tlsMode := by
  obtain ⟨entry, hentry, hhost, hclient, hmode⟩ := (configured_run hcfg.clients hs.1 sni e he).entry
  have hexact : cfg.exactEntry (toAsciiLowercase sni) = some (.hostname entry) :=
    (ServerConfig.exactEntry_eq_some hd).mpr (.inr ⟨entry, hentry, by rw [hhost], rfl⟩)
  exact ⟨entry, by simp [ServerConfig.routingEntry, hexact], hclient, hmode⟩

/-- What a lookup finds in static mode belongs to the entry that routes the host. -/
theorem of_foundAt (hcfg : cfg.Accepted) (hd : cfg.HostsDistinct) (hs : StaticAfter cfg past s)
    {d : Destination} (h : FoundAt sni peer s d) :
    ∃ entry, cfg.routingEntry sni = some entry ∧ d.Of cfg past entry := by
  cases d with
  | tunnel route header =>
      obtain ⟨-, e, he, hn, -, hc, -⟩ := lookup_eq_tunnel h.1
      obtain ⟨entry, hentry, hclient, -⟩ := routingEntry_of_lookup hcfg hd hs he
      refine ⟨.hostname entry, hentry, entry, rfl, hn.trans hclient.symm, ?_⟩
      exact hclient ▸ (configured_run hcfg.clients hs.1 sni e he).presented route.conn hc
  | localTo target =>
      obtain ⟨up, hup, htarget⟩ := lookup_eq_localTo.mp h
      rw [upstream_static hd hcfg.targets (static_table hcfg hs)] at hup
      obtain ⟨entry, hentry, hres⟩ := Option.bind_eq_some_iff.mp hup
      cases entry with
      | hostname e => cases hres
      | upstream u =>
          obtain ⟨target', ht', rfl⟩ := Option.map_eq_some_iff.mp hres
          exact ⟨_, hentry, u, rfl, ht'.trans (congrArg some htarget)⟩

/-- So what a public connection in static mode sends goes to the entry that routes its host. -/
theorem sendsTo_of_asks (hcfg : cfg.Accepted) (hd : cfg.HostsDistinct) {v : Visit} (hs : StaticDuring cfg as s)
    (hasks : v.Asks s) {d : Destination} (h : FoundAt sni peer s d) :
    ∃ entry, cfg.routingEntry sni = some entry ∧ v.SendsTo cfg as sni peer entry d := by
  obtain ⟨past, hpast, hs⟩ := hs
  obtain ⟨entry, hentry, hdof⟩ := of_foundAt hcfg hd hs h
  exact ⟨entry, hentry, past, s, hpast, hs, hasks, h, hdof⟩

/-- The paths that the mode of an entry allows. -/
inductive PathAllowed (v : Visit) (needsClientCert : Bool) (entry : ConfigEntry) : Path → Prop
  | rawTls : entry.tlsMode = .passthrough → PathAllowed v needsClientCert entry .rawTls
  | offload {alpn : Option Alpn} : entry.tlsMode = .tlsOffload → v.Admitted needsClientCert alpn →
      PathAllowed v needsClientCert entry .offload
  | http {alpn : Option Alpn} {client : Client} {exchange : Exchange} : entry.tlsMode = .terminated →
      v.Admitted needsClientCert alpn → PathAllowed v needsClientCert entry (.http client exchange)
  | bytePipe {e : HostnameEntry} : entry.tlsMode = .terminated → entry = .hostname e →
      v.Admitted needsClientCert none → PathAllowed v needsClientCert entry .bytePipe

/-- An upstream would have been seen by `routes_to_upstream`, so that what is piped goes to the
tunnel of a hostname. -/
theorem hostname_of_not_routesToUpstream (hcfg : cfg.Accepted) (hd : cfg.HostsDistinct)
    (hs : StaticDuring cfg as s) {v : Visit} {entry : ConfigEntry} {d : Destination}
    (hentry : cfg.routingEntry sni = some entry) (hsends : v.SendsTo cfg as sni peer entry d)
    (hup : s.routes.routesToUpstream sni = false) : ∃ e, entry = .hostname e := by
  obtain ⟨sent, -, -, -, -, -, hdof⟩ := hsends
  obtain ⟨past, -, hs⟩ := hs
  cases entry with
  | hostname e => exact ⟨e, rfl⟩
  | upstream u =>
      rw [routesToUpstream_eq, upstream_static hd hcfg.targets (static_table hcfg hs), hentry] at hup
      have hnone : u.resolved.isSome = false := hup
      cases d with
      | tunnel route header =>
          obtain ⟨e, he, -⟩ := hdof
          cases he
      | localTo target =>
          obtain ⟨u', hu', ht'⟩ := hdof
          cases hu'
          simp [UpstreamEntry.resolved, ht'] at hnone

/-- What is forwarded in static mode goes to the entry that routes the host, along a path that its
mode allows. -/
theorem forward_static (hcfg : cfg.Accepted) (hd : cfg.HostsDistinct) {v : Visit} (hv : v.Static cfg as)
    {needsClientCert : Bool} {path : Path} {d : Destination}
    (h : .forward path d ∈ serveSni sni peer needsClientCert v) :
    ∃ entry, cfg.routingEntry sni = some entry ∧ v.SendsTo cfg as sni peer entry d ∧
      PathAllowed v needsClientCert entry path := by
  obtain ⟨past, -, hterminated⟩ := hv.terminatedAt
  obtain ⟨past', -, hoffload⟩ := hv.offloadAt
  have hterm := isTerminated_static hd hcfg.targets (static_table hcfg hterminated) (h := sni)
  have hoff := isOffload_static hd hcfg.targets (static_table hcfg hoffload) (h := sni)
  rcases mem_serveSni h with ⟨hfalse, rfl, hf⟩ | ⟨htrue, alpn, cert, htls, hacme, hcert, hcase⟩
  · obtain ⟨entry, hentry, hsends⟩ := sendsTo_of_asks hcfg hd hv.pipe (.inl rfl) hf
    rw [hterm, hentry, Option.any_some] at hfalse
    exact ⟨entry, hentry, hsends, .rawTls (TlsMode.not_terminates.mp (by simp [hfalse]))⟩
  · have hadm : v.Admitted needsClientCert alpn := ⟨cert, htls, hacme, hcert⟩
    rw [hterm] at htrue
    rw [hoff] at hcase
    rcases hcase with ⟨ho, rfl, hf⟩ | ⟨ho, ⟨client, exchange, rfl⟩, r, hr, hf⟩ | ⟨ho, rfl, rfl, hup, hf⟩
    · obtain ⟨entry, hentry, hsends⟩ := sendsTo_of_asks hcfg hd hv.pipe (.inl rfl) hf
      rw [hentry, Option.any_some] at ho
      exact ⟨entry, hentry, hsends, .offload (of_decide_eq_true ho) hadm⟩
    · obtain ⟨entry, hentry, hsends⟩ :=
        sendsTo_of_asks hcfg hd (hv.requests r hr) (.inr ⟨r, hr, rfl⟩) hf
      rw [hentry, Option.any_some] at htrue ho
      have hmode := (TlsMode.terminates_iff.mp htrue).resolve_right (of_decide_eq_false ho)
      exact ⟨entry, hentry, hsends, .http hmode hadm⟩
    · obtain ⟨entry, hentry, hsends⟩ := sendsTo_of_asks hcfg hd hv.pipe (.inl rfl) hf
      rw [hentry, Option.any_some] at htrue ho
      obtain ⟨e, he⟩ := hostname_of_not_routesToUpstream hcfg hd hv.upstreamAt hentry hsends hup
      have hmode := (TlsMode.terminates_iff.mp htrue).resolve_right (of_decide_eq_false ho)
      exact ⟨entry, hentry, hsends, .bytePipe hmode he hadm⟩

/-- **The public listener does what the configuration says**, in static mode. -/
theorem public_follows_entry (hcfg : cfg.validate = .ok ()) (hd : cfg.HostsDistinct) {v : Visit}
    (hv : v.Static cfg as) :
    FollowsEntry cfg as sni peer v
      (handlePublic cfg.clientCaFile.isSome peer (.record (some sni)) v) := by
  have hacc := ServerConfig.validate_ok hcfg
  obtain ⟨past, -, hterminated⟩ := hv.terminatedAt
  obtain ⟨past', -, hoffload⟩ := hv.offloadAt
  have hterm := isTerminated_static hd hacc.targets (static_table hacc hterminated) (h := sni)
  have hoff := isOffload_static hd hacc.targets (static_table hacc hoffload) (h := sni)
  have hforward : ∀ {entry path d}, cfg.routingEntry sni = some entry →
      .forward path d ∈ serveSni sni peer cfg.clientCaFile.isSome v →
      v.SendsTo cfg as sni peer entry d ∧ PathAllowed v cfg.clientCaFile.isSome entry path := by
    intro entry path d hentry h
    obtain ⟨entry', hentry', hrest⟩ := forward_static hacc hd hv h
    rw [hentry] at hentry'
    exact Option.some.inj hentry' ▸ hrest
  refine ⟨?_, ?_, ?_, ?_, ?_, ?_⟩
  · intro entry hentry hmode
    rw [hentry, Option.any_some, hmode] at hterm
    refine ⟨fun h => ?_, fun h => ?_, fun path d h => ?_⟩
    · exact absurd ((handshake_mem_serveSni h).symm.trans hterm) (by decide)
    · exact absurd ((page502_mem_serveSni h).1.symm.trans hterm) (by decide)
    · obtain ⟨hsends, hpath⟩ := hforward hentry h
      refine ⟨?_, hsends⟩
      cases hpath <;> simp_all
  · intro entry hentry hmode path d h
    obtain ⟨hsends, hpath⟩ := hforward hentry h
    cases hpath with
    | rawTls hpass =>
        rw [hpass] at hmode
        cases hmode
    | offload _ hadm => exact ⟨by simp, hsends, _, hadm⟩
    | http _ hadm => exact ⟨by simp, hsends, _, hadm⟩
    | bytePipe _ _ hadm => exact ⟨by simp, hsends, _, hadm⟩
  · intro entry hentry hmode
    rw [hentry, Option.any_some, hmode] at hoff
    refine ⟨fun h => ?_, fun path d h => ?_⟩
    · exact absurd ((page502_mem_serveSni h).2.symm.trans hoff) (by decide)
    · obtain ⟨-, hpath⟩ := hforward hentry h
      cases hpath <;> simp_all
  · intro u hentry hmode path d h
    obtain ⟨-, hpath⟩ := hforward hentry h
    cases hpath with
    | http => exact ⟨_, _, rfl⟩
    | rawTls hm => exact absurd (hmode.symm.trans hm) (by decide)
    | offload hm => exact absurd (hmode.symm.trans hm) (by decide)
    | bytePipe _ he => cases he
  · intro e hentry hmode path d h
    obtain ⟨-, hpath⟩ := hforward hentry h
    cases hpath with
    | http => exact .inl ⟨_, _, rfl⟩
    | rawTls hm => exact absurd (hmode.symm.trans hm) (by decide)
    | offload hm => exact absurd (hmode.symm.trans hm) (by decide)
    | bytePipe _ _ hadm => exact .inr ⟨rfl, hadm.imp fun _ h => h.1⟩
  · intro hnone
    rw [hnone, Option.any_none] at hterm
    refine List.eq_nil_iff_forall_not_mem.mpr fun o ho => ?_
    cases o with
    | handshake => exact absurd ((handshake_mem_serveSni ho).symm.trans hterm) (by decide)
    | page502 => exact absurd ((page502_mem_serveSni ho).1.symm.trans hterm) (by decide)
    | forward path d =>
        obtain ⟨entry, hentry, -⟩ := forward_static hacc hd hv ho
        rw [hnone] at hentry
        cases hentry

/-- One client with one terminated host. -/
def appConfig : ServerConfig where
  clients := [{ name := ['c'], token := Vector.replicate 32 7 }]
  hostnames := [{ host := "app".toList, client := ['c'], tlsMode := .terminated }]

/-- The tunnel of the client comes up. -/
def appComesUp : List Action :=
  comeUp (.nth 0) ⟨Vector.replicate 32 7, ['c']⟩ ⟨['c'], .lastWriteWins, [("app".toList, .terminated)]⟩

/-- A connection that asks a server before a tunnel is up, and makes a request then and another one later. -/
def appVisit (before later : Server) : Visit where
  terminatedAt := before
  tls := .established (some .http11) false
  offloadAt := before
  upstreamAt := before
  pipe := ⟨later, true⟩
  requests := [⟨⟨before, true⟩, ⟨false, false, false⟩, true⟩, ⟨⟨later, true⟩, ⟨false, false, false⟩, true⟩]

/-- The first request gets a 502 page, and the second goes to the tunnel that has come up meanwhile. -/
theorem public_follows_entry_tunnel :
    ∃ s, Runs.run (step (staticAnswers appConfig)) appComesUp (start appConfig) = some s ∧
      FollowsEntry appConfig appComesUp "app".toList (.v4 192 0 2 7 50000) (appVisit (start appConfig) s)
        [.handshake, .page502, .forward (.http .direct .h1Roundtrip) (.tunnel ⟨['c'], .terminated, .nth 0⟩
          ⟨"app".toList, "192.0.2.7:50000".toList, .terminated⟩)] := by
  have hobs : (Runs.run (step (staticAnswers appConfig)) appComesUp (start appConfig)).map (fun s =>
      handlePublic appConfig.clientCaFile.isSome (.v4 192 0 2 7 50000) (.record (some "app".toList))
        (appVisit (start appConfig) s)) =
      some [.handshake, .page502, .forward (.http .direct .h1Roundtrip) (.tunnel ⟨['c'], .terminated, .nth 0⟩
        ⟨"app".toList, "192.0.2.7:50000".toList, .terminated⟩)] := by
    decide
  obtain ⟨s, hs, hout⟩ := Option.map_eq_some_iff.mp hobs
  have hno : ∀ domains, .setTerminatedDomains domains ∉ appComesUp := by simp [appComesUp, comeUp]
  have hbefore : StaticDuring appConfig appComesUp (start appConfig) :=
    ⟨[], List.nil_prefix, rfl, fun _ => List.not_mem_nil⟩
  have hlater : StaticDuring appConfig appComesUp s := ⟨_, List.prefix_rfl, hs, hno⟩
  have hvisit : (appVisit (start appConfig) s).Static appConfig appComesUp := by
    refine ⟨hbefore, hbefore, hbefore, hlater, ?_⟩
    simp only [appVisit, List.forall_mem_cons]
    exact ⟨hbefore, hlater, fun _ h => absurd h List.not_mem_nil⟩
  refine ⟨s, hs, ?_⟩
  rw [← hout]
  exact public_follows_entry (by decide) (by decide) hvisit

end

end Tuyau
