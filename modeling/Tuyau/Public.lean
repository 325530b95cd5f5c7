import Tuyau.Server

/-! # The public listener

`handle_public` reads the ClientHello of a public connection, decides from the routing table whether
to terminate its TLS, and sends what follows to a tunnel or a local upstream.  It asks the table up
to four times, with awaits in between, and once more for every proxied request; each of these
questions is put to the server as it is at that moment.  A `Visit` collects what one public
connection meets on its way: the servers its questions are put to, how its handshake ends, whether
what a lookup finds can be reached, and the HTTP requests it makes.

The result is the list of `Output`s that leave the listener, in order: the handshake, bytes
forwarded along a `Path` to a `Destination`, and 502 pages.  A tunnel as destination comes with
the `DataStreamHeader` that `open_tunnel_stream` sends ahead of the bytes. -/

namespace Tuyau

open AsciiText

/-- The application protocol negotiated in the handshake. -/
inductive Alpn where
  | h2
  | http11
  | acmeTls1
deriving DecidableEq

/-- How far the handshake of a terminated connection gets. -/
inductive TlsOutcome where
  | acceptFailed
  | acceptTimeout
  | handshakeFailed
  | established (alpn : Option Alpn) (clientCert : Bool)
deriving DecidableEq

/-- What the first record of a public connection gives. -/
inductive ClientHello where
  | unreadable
  | timeout
  | record (sni : Option Text)
deriving DecidableEq

/-- Whether the client of a connection is a proxy trusted to name its own client. -/
inductive Client where
  | proxy
  | direct
deriving DecidableEq

/-- A connection that passed the check of its client cert is that of a trusted proxy. -/
def Client.of (needsClientCert : Bool) : Client :=
  match needsClientCert with
  | true => .proxy
  | false => .direct

/-- An HTTP request, as far as the proxy branches on it. -/
structure Request where
  isConnect : Bool
  isWebsocket : Bool
  hasUpgrade : Bool
deriving DecidableEq

/-- How a request is exchanged with a backend; a CONNECT that is refused takes a stream and sends
nothing on it. -/
inductive Exchange where
  | wsBridge
  | h1Upgrade
  | h1Roundtrip
  | pooled
  | refused
deriving DecidableEq

/-- Where bytes are sent. -/
inductive Destination where
  | tunnel (route : RouteEntry) (header : DataStreamHeader)
  | localTo (target : UpstreamTarget)
deriving DecidableEq

/-- What is sent there: the client's TLS bytes, plaintext of an offload host, plaintext piped for
want of a negotiated protocol, or HTTP requests. -/
inductive Path where
  | rawTls
  | offload
  | bytePipe
  | http (client : Client) (exchange : Exchange)
deriving DecidableEq

/-- What leaves the listener. -/
inductive Output where
  | handshake
  | forward (path : Path) (destination : Destination)
  | page502
deriving DecidableEq

/-- A lookup, and whether what it finds can be reached. -/
structure Attempt where
  seen : Server
  reached : Bool

/-- A request of a proxied connection, and whether its exchange succeeds. -/
structure ProxiedRequest extends Attempt where
  request : Request
  answered : Bool

/-- What one public connection meets. -/
structure Visit where
  terminatedAt : Server
  tls : TlsOutcome
  offloadAt : Server
  upstreamAt : Server
  pipe : Attempt
  requests : List ProxiedRequest

/-- The servers that a public connection puts a lookup to. -/
def Visit.Asks (v : Visit) (s : Server) : Prop := s = v.pipe.seen ∨ ∃ r ∈ v.requests, s = r.seen

/-- The route of a host. -/
def Server.find (s : Server) (host : Text) : Option Route :=
  (s.routes.lookup (fun c => !s.closed c) host).1

/-! ### HTTP proxying -/

namespace Request

def isWebsocketConnect (r : Request) : Bool := r.isConnect && r.isWebsocket

/-- Whether a request takes a backend connection for itself. -/
def needsOwnConnection (r : Request) : Bool := r.isWebsocketConnect || r.hasUpgrade || r.isConnect

end Request

section

variable (sni : Text) (peer : SocketAddr)

/-- Open a stream on a tunnel and send its header. -/
def openTunnelStream (route : RouteEntry) (reached : Bool) : Option DataStreamHeader :=
  if reached then some ⟨sni, peer.toText, route.tlsMode⟩ else none

/-- One exchange with a backend, followed by a 502 page if it fails. -/
def exchangeWith (client : Client) (destination : Destination) (answered : Bool)
    (exchange : Exchange) : List Output :=
  .forward (.http client exchange) destination :: if answered then [] else [.page502]

/-- Dispatch a request over an established backend stream. -/
def serveRequest (client : Client) (r : ProxiedRequest) (destination : Destination) : List Output :=
  if r.request.isWebsocketConnect then exchangeWith client destination r.answered .wsBridge
  else if r.request.hasUpgrade then exchangeWith client destination r.answered .h1Upgrade
  else if r.request.isConnect then [.forward (.http client .refused) destination, .page502]
  else exchangeWith client destination r.answered .h1Roundtrip

/-- Route and proxy a single request. -/
def proxy (client : Client) (r : ProxiedRequest) : List Output :=
  match r.seen.find sni with
  | some (.tunnel entry) =>
      match openTunnelStream sni peer entry r.reached with
      | some header => serveRequest client r (.tunnel entry header)
      | none => [.page502]
  | some (.localTo target) =>
      if r.request.needsOwnConnection then
        if r.reached then serveRequest client r (.localTo target) else [.page502]
      else exchangeWith client (.localTo target) r.answered .pooled
  | none => [.page502]

/-- Serve a terminated connection as a reverse proxy, request by request. -/
def serveHttp (client : Client) (requests : List ProxiedRequest) : List Output :=
  requests.flatMap (proxy sni peer client)

/-- Pipe bytes along `path` to what a lookup finds, or do `missing` if it finds nothing. -/
def pipeTo (path : Path) (a : Attempt) (missing : List Output) : List Output :=
  match a.seen.find sni with
  | some (.tunnel entry) =>
      match openTunnelStream sni peer entry a.reached with
      | some header => [.forward path (.tunnel entry header)]
      | none => []
  | some (.localTo target) => if a.reached then [.forward path (.localTo target)] else []
  | none => missing

/-- What happens after the handshake. -/
def serveTerminated (needsClientCert : Bool) (v : Visit) (alpn : Option Alpn) (clientCert : Bool) :
    List Output :=
  if alpn = some .acmeTls1 then []
  else if needsClientCert && !clientCert then []
  else
    let offload := v.offloadAt.routes.isOffload sni
    let client := Client.of needsClientCert
    if !offload && decide (alpn = some .h2) then serveHttp sni peer client v.requests
    else
      let h1 := decide (alpn = some .http11) ||
        (alpn.isNone && v.upstreamAt.routes.routesToUpstream sni)
      if !offload && h1 then serveHttp sni peer client v.requests
      else if offload then pipeTo sni peer .offload v.pipe []
      else pipeTo sni peer .bytePipe v.pipe [.page502]

/-- A public connection whose SNI is known. -/
def serveSni (needsClientCert : Bool) (v : Visit) : List Output :=
  if v.terminatedAt.routes.isTerminated sni then
    match v.tls with
    | .acceptFailed => []
    | .acceptTimeout => []
    | .handshakeFailed => [.handshake]
    | .established alpn clientCert =>
        .handshake :: serveTerminated sni peer needsClientCert v alpn clientCert
  else pipeTo sni peer .rawTls v.pipe []

end

/-- A public connection from its first byte on; without an SNI it is dropped. -/
def handlePublic (needsClientCert : Bool) (peer : SocketAddr) (hello : ClientHello) (v : Visit) :
    List Output :=
  match hello with
  | .record (some sni) => serveSni sni peer needsClientCert v
  | _ => []

/-! ### What can be forwarded -/

section

variable {sni : Text} {peer : SocketAddr} {path : Path} {d : Destination} {client : Client}

/-- A destination is what some lookup found, with the header of a tunnel made from its route. -/
def FoundAt (sni : Text) (peer : SocketAddr) (s : Server) : Destination → Prop
  | .tunnel route header =>
      s.find sni = some (.tunnel route) ∧ header = ⟨sni, peer.toText, route.tlsMode⟩
  | .localTo target => s.find sni = some (.localTo target)

theorem mem_exchangeWith {answered : Bool} {exchange : Exchange} {d' : Destination}
    (h : .forward path d ∈ exchangeWith client d' answered exchange) :
    path = .http client exchange ∧ d = d' := by
  simp only [exchangeWith, List.mem_cons, Output.forward.injEq] at h
  rcases h with h | h
  · exact h
  · split_ifs at h <;> simp at h

theorem mem_serveRequest {r : ProxiedRequest} {d' : Destination}
    (h : .forward path d ∈ serveRequest client r d') :
    (∃ exchange, path = .http client exchange) ∧ d = d' := by
  rw [serveRequest] at h
  split_ifs at h
  · exact ⟨⟨_, (mem_exchangeWith h).1⟩, (mem_exchangeWith h).2⟩
  · exact ⟨⟨_, (mem_exchangeWith h).1⟩, (mem_exchangeWith h).2⟩
  · obtain ⟨rfl, rfl⟩ : path = .http client .refused ∧ d = d' := by simpa using h
    exact ⟨⟨_, rfl⟩, rfl⟩
  · exact ⟨⟨_, (mem_exchangeWith h).1⟩, (mem_exchangeWith h).2⟩

theorem openTunnelStream_eq_some {route : RouteEntry} {reached : Bool} {header : DataStreamHeader}
    (h : openTunnelStream sni peer route reached = some header) :
    header = ⟨sni, peer.toText, route.tlsMode⟩ := by
  rw [openTunnelStream] at h
  split_ifs at h
  exact (Option.some.inj h).symm

theorem mem_proxy {r : ProxiedRequest} (h : .forward path d ∈ proxy sni peer client r) :
    (∃ exchange, path = .http client exchange) ∧ FoundAt sni peer r.seen d := by
  rw [proxy] at h
  split at h
  · next entry hfind =>
      split at h
      · next header hopen =>
          obtain ⟨hpath, rfl⟩ := mem_serveRequest h
          exact ⟨hpath, hfind, openTunnelStream_eq_some hopen⟩
      · simp at h
  · next target hfind =>
      split_ifs at h
      · obtain ⟨hpath, rfl⟩ := mem_serveRequest h
        exact ⟨hpath, hfind⟩
      · simp at h
      · obtain ⟨hpath, rfl⟩ := mem_exchangeWith h
        exact ⟨⟨_, hpath⟩, hfind⟩
  · simp at h

theorem mem_serveHttp {requests : List ProxiedRequest}
    (h : .forward path d ∈ serveHttp sni peer client requests) :
    (∃ exchange, path = .http client exchange) ∧ ∃ r ∈ requests, FoundAt sni peer r.seen d := by
  obtain ⟨r, hr, h⟩ := List.mem_flatMap.mp h
  exact ⟨(mem_proxy h).1, r, hr, (mem_proxy h).2⟩

theorem mem_pipeTo {path' : Path} {a : Attempt} {missing : List Output}
    (hmissing : ∀ path d, .forward path d ∉ missing)
    (h : .forward path d ∈ pipeTo sni peer path' a missing) :
    path = path' ∧ FoundAt sni peer a.seen d := by
  rw [pipeTo] at h
  split at h
  · next entry hfind =>
      split at h
      · next header hopen =>
          obtain ⟨rfl, rfl⟩ := Output.forward.inj (List.mem_singleton.mp h)
          exact ⟨rfl, hfind, openTunnelStream_eq_some hopen⟩
      · simp at h
  · next target hfind =>
      split_ifs at h
      · obtain ⟨rfl, rfl⟩ := Output.forward.inj (List.mem_singleton.mp h)
        exact ⟨rfl, hfind⟩
      · simp at h
  · exact absurd h (hmissing _ _)

/-- **What a public connection can send**, by the answers it got on its way. -/
theorem mem_serveSni {needsClientCert : Bool} {v : Visit}
    (h : .forward path d ∈ serveSni sni peer needsClientCert v) :
    v.terminatedAt.routes.isTerminated sni = false ∧ path = .rawTls ∧ FoundAt sni peer v.pipe.seen d ∨
    v.terminatedAt.routes.isTerminated sni = true ∧
      ∃ alpn cert, v.tls = .established alpn cert ∧ alpn ≠ some .acmeTls1 ∧
        (needsClientCert = true → cert = true) ∧
        (v.offloadAt.routes.isOffload sni = true ∧ path = .offload ∧ FoundAt sni peer v.pipe.seen d ∨
          v.offloadAt.routes.isOffload sni = false ∧ (∃ client exchange, path = .http client exchange) ∧
            (∃ r ∈ v.requests, FoundAt sni peer r.seen d) ∨
          v.offloadAt.routes.isOffload sni = false ∧ path = .bytePipe ∧ alpn = none ∧
            v.upstreamAt.routes.routesToUpstream sni = false ∧ FoundAt sni peer v.pipe.seen d) := by
  rw [serveSni] at h
  split_ifs at h with hterm
  · right
    refine ⟨hterm, ?_⟩
    split at h
    · simp at h
    · simp at h
    · simp at h
    · next alpn cert htls =>
        refine ⟨alpn, cert, htls, ?_⟩
        rw [List.mem_cons] at h
        replace h := h.resolve_left (by simp)
        rw [serveTerminated] at h
        dsimp only at h
        split_ifs at h with hacme hcert hh2 hh1 hoff
        · simp at h
        · simp at h
        all_goals
          refine ⟨hacme, fun hn => by simpa [hn] using hcert, ?_⟩
        · obtain ⟨⟨exchange, hpath⟩, hfound⟩ := mem_serveHttp h
          simp only [Bool.and_eq_true, Bool.not_eq_true'] at hh2
          exact .inr (.inl ⟨hh2.1, ⟨_, exchange, hpath⟩, hfound⟩)
        · obtain ⟨⟨exchange, hpath⟩, hfound⟩ := mem_serveHttp h
          simp only [Bool.and_eq_true, Bool.not_eq_true'] at hh1
          exact .inr (.inl ⟨hh1.1, ⟨_, exchange, hpath⟩, hfound⟩)
        · obtain ⟨hpath, hfound⟩ := mem_pipeTo (by simp) h
          exact .inl ⟨hoff, hpath, hfound⟩
        · obtain ⟨hpath, hfound⟩ := mem_pipeTo (by simp) h
          rw [Bool.not_eq_true] at hoff
          have halpn : alpn = none ∧ v.upstreamAt.routes.routesToUpstream sni = false := by
            cases alpn with
            | none => simpa [hoff] using hh1
            | some p => cases p <;> simp_all
          exact .inr (.inr ⟨hoff, hpath, halpn.1, halpn.2, hfound⟩)
  · exact .inl ⟨by simpa using hterm, mem_pipeTo (by simp) h⟩

/-- A handshake is only made for a terminated host. -/
theorem handshake_mem_serveSni {needsClientCert : Bool} {v : Visit}
    (h : .handshake ∈ serveSni sni peer needsClientCert v) :
    v.terminatedAt.routes.isTerminated sni = true := by
  by_contra hterm
  rw [serveSni, if_neg hterm, pipeTo] at h
  split at h
  · split at h <;> simp at h
  · split_ifs at h <;> simp at h
  · simp at h

/-- A 502 page is only sent for a terminated host that is not piped. -/
theorem page502_mem_serveSni {needsClientCert : Bool} {v : Visit}
    (h : .page502 ∈ serveSni sni peer needsClientCert v) :
    v.terminatedAt.routes.isTerminated sni = true ∧ v.offloadAt.routes.isOffload sni = false := by
  have hpipe : ∀ path, .page502 ∉ pipeTo sni peer path v.pipe [] := by
    intro path h
    rw [pipeTo] at h
    split at h
    · split at h <;> simp at h
    · split_ifs at h <;> simp at h
    · simp at h
  rw [serveSni] at h
  split_ifs at h with hterm
  · refine ⟨hterm, ?_⟩
    by_contra hoff
    rw [Bool.not_eq_false] at hoff
    split at h
    · simp at h
    · simp at h
    · simp at h
    · rw [List.mem_cons] at h
      replace h := h.resolve_left (by simp)
      rw [serveTerminated] at h
      simp only [hoff, Bool.not_true, Bool.false_and, Bool.false_eq_true, if_false, if_true] at h
      split_ifs at h
      · simp at h
      · simp at h
      · exact hpipe _ h
  · exact absurd h (hpipe _)

end

end Tuyau
