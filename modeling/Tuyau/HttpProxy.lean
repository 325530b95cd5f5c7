import Mathlib.Data.List.DropRight
import Tuyau.AddrParse
import Tuyau.Http
import Tuyau.Public

/-! # The HTTP reverse proxy

What the proxy does with a request of a terminated connection before a backend gets it.  It first sets
the headers that name the client's address, and then takes one of four ways, by the route and by what
the request is: `pooled_roundtrip` sends it on a connection shared by all clients of a local upstream,
`h1_roundtrip` and `h1_upgrade` on a connection of its own, and `ws_bridge` makes a new request out of an
extended CONNECT.  `proxyRequest` gives the request that is handed to the backend.

The main result is `client_address_set`: on every way there is exactly one `X-Real-IP` and one
`X-Forwarded-For`, both with the address of the client, and a `CF-Connecting-IP` that is not the source
of it does not get through.  The parser of IP addresses is a parameter; `IpAddr.parse` is the one in use. -/

namespace Tuyau

open AsciiText Http

/-- The HTTP versions of the two sides. -/
inductive HttpVersion where
  | http11
  | http2
deriving DecidableEq

/-- An HTTP request; `protocol` is the `:protocol` of an extended CONNECT. -/
structure HttpRequest where
  method : Text
  uri : Uri
  version : HttpVersion
  headers : HeaderMap
  protocol : Option Text
  body : List UInt8

/-- Why no request is handed to the backend: a 502 page, or a panic at an `expect` or an index. -/
inductive ProxyFailure where
  | badGateway
  | expectPanic
  | indexPanic
deriving DecidableEq

def xRealIp : Text := "x-real-ip".toList
def xForwardedFor : Text := "x-forwarded-for".toList
def cfConnectingIp : Text := "cf-connecting-ip".toList
def hostHeader : Text := "host".toList
def upgradeHeader : Text := "upgrade".toList
def connectionHeader : Text := "connection".toList
def secWebsocketVersion : Text := "sec-websocket-version".toList
def secWebsocketKey : Text := "sec-websocket-key".toList
def secWebsocketProtocol : Text := "sec-websocket-protocol".toList

/-- `WS_KEY`. -/
def wsKey : Text := "AAAAAAAAAAAAAAAAAAAAAA==".toList

namespace HttpRequest

def isConnect (r : HttpRequest) : Bool := r.method = "CONNECT".toList

/-- A request as far as the proxy branches on it. -/
def view (r : HttpRequest) : Request where
  isConnect := r.isConnect
  isWebsocket := r.protocol.any fun p => toAsciiLowercase p = "websocket".toList
  hasUpgrade := r.headers.containsKey upgradeHeader

end HttpRequest

/-! ### The client's address -/

/-- A string without white space at its ends. -/
def trim (t : Text) : Text := (t.dropWhile Char.isWhitespace).rdropWhile Char.isWhitespace

section

variable (parseIp : Text → Option IpAddr)

/-- The address that a trusted proxy gives. -/
def forwardedAddress (headers : HeaderMap) : Client → Option IpAddr
  | .proxy => do
      let value ← headers.get cfConnectingIp
      let text ← headerText value
      parseIp (trim text)
  | .direct => none

/-- `set_client_address`; nothing is the panic of its `expect`. -/
def setClientAddress (headers : HeaderMap) (peer : SocketAddr) (client : Client) : Option HeaderMap :=
  let forwarded := forwardedAddress parseIp headers client
  let headers := if forwarded.isNone then headers.remove cfConnectingIp else headers
  let address := (forwarded.getD peer.ip).toCanonical.toText
  (headerValue address).map fun address =>
    (headers.insert xForwardedFor address).insert xRealIp address

end

/-! ### The four ways -/

/-- The authority a request is for: that of its URI, the `Host` header or the SNI. -/
def requestAuthority (sni : Text) (req : HttpRequest) : Text :=
  (req.uri.authority.or (req.headers.get hostHeader >>= headerText)).getD sni

/-- `downgrade_to_h1`: the request target in origin form and a `Host` header. -/
def downgradeToH1 (sni : Text) (req : HttpRequest) : HttpRequest :=
  let authority := requestAuthority sni req
  let origin := req.uri.pathAndQuery.getD ['/']
  { req with
    uri := (Uri.parse origin).getD req.uri
    headers := (headerValue authority).elim req.headers (req.headers.insert hostHeader)
    version := .http11 }

/-- `h1_upgrade`: a copy of the request without its body. -/
def h1Upgrade (req : HttpRequest) : HttpRequest :=
  { method := req.method, uri := req.uri, version := .http11, headers := req.headers, protocol := none,
    body := [] }

/-- The headers of a WebSocket handshake in HTTP/1.1. -/
def wsHeaders (host realIp forwardedFor : List UInt8) (protocol : Option (List UInt8)) : HeaderMap :=
  let headers : HeaderMap := ⟨[(hostHeader, host), (xRealIp, realIp), (xForwardedFor, forwardedFor),
    (connectionHeader, utf8 "Upgrade".toList), (upgradeHeader, utf8 "websocket".toList),
    (secWebsocketVersion, utf8 "13".toList), (secWebsocketKey, utf8 wsKey)]⟩
  protocol.elim headers (headers.append secWebsocketProtocol)

/-- `ws_bridge`: a WebSocket handshake in HTTP/1.1. -/
def wsBridge (sni : Text) (req : HttpRequest) : Except ProxyFailure HttpRequest :=
  match req.headers.get xRealIp, req.headers.get xForwardedFor with
  | some realIp, some forwardedFor =>
      match Uri.parse (req.uri.pathAndQuery.getD ['/']), headerValue (requestAuthority sni req) with
      | some uri, some host =>
          let headers := wsHeaders host realIp forwardedFor (req.headers.get secWebsocketProtocol)
          .ok { method := "GET".toList, uri, version := .http11, headers, protocol := none, body := [] }
      | _, _ => .error .badGateway
  | _, _ => .error .indexPanic

/-- Bytes in lower-case hexadecimal. -/
def hexEncode (bs : List UInt8) : Text :=
  bs.flatMap fun b => [Nat.digitChar (b.toNat / 16), Nat.digitChar (b.toNat % 16)]

/-- The authority that names a target for the pool. -/
def UpstreamTarget.authority : UpstreamTarget → Text
  | .tcp addr => addr.toText
  | .unix path => hexEncode path

/-- The URI that `LocalPool::send` gives the client of the pool, if its `expect` does not panic. -/
def poolUri (target : UpstreamTarget) (req : HttpRequest) : Option Uri :=
  Uri.parse (Uri.httpScheme ++ (target.authority ++ req.uri.pathAndQuery.getD ['/']))

/-- `LocalPool::send`; the client is given an absolute URI and sends the origin form. -/
def poolSend (target : UpstreamTarget) (req : HttpRequest) : Except ProxyFailure HttpRequest :=
  match poolUri target req with
  | some uri => .ok { req with uri := uri.intoOriginForm }
  | none => .error .expectPanic

/-- What goes over a connection of its own. -/
def requestOverStream (sni : Text) (req : HttpRequest) : Except ProxyFailure HttpRequest :=
  if req.view.isWebsocketConnect then wsBridge sni req
  else if req.view.hasUpgrade then .ok (h1Upgrade req)
  else if req.view.isConnect then .error .badGateway
  else .ok (downgradeToH1 sni req)

/-- The request handed to the backend of a route, once its client's address is set. -/
def requestOverRoute (route : Route) (sni : Text) (req : HttpRequest) :
    Except ProxyFailure HttpRequest :=
  match route with
  | .tunnel _ => requestOverStream sni req
  | .localTo target =>
      if req.view.needsOwnConnection then requestOverStream sni req
      else poolSend target (downgradeToH1 sni req)

/-- The request that `proxy` hands to the backend of a route. -/
def proxyRequest (parseIp : Text → Option IpAddr) (route : Route) (sni : Text) (peer : SocketAddr)
    (client : Client) (req : HttpRequest) : Except ProxyFailure HttpRequest :=
  match setClientAddress parseIp req.headers peer client with
  | some headers => requestOverRoute route sni { req with headers }
  | none => .error .expectPanic

/-! ### The way a request takes -/

/-- The exchange over a connection of its own. -/
def Request.ownExchange (r : Request) : Exchange :=
  if r.isWebsocketConnect then .wsBridge
  else if r.hasUpgrade then .h1Upgrade
  else if r.isConnect then .refused
  else .h1Roundtrip

/-- The exchange that the proxy chooses for a request on a route. -/
def Request.exchange (r : Request) : Route → Exchange
  | .tunnel _ => r.ownExchange
  | .localTo _ => if r.needsOwnConnection then r.ownExchange else .pooled

/-- The request handed to a backend, by the exchange. -/
def requestBy (route : Route) (sni : Text) (req : HttpRequest) :
    Exchange → Except ProxyFailure HttpRequest
  | .wsBridge => wsBridge sni req
  | .h1Upgrade => .ok (h1Upgrade req)
  | .h1Roundtrip => .ok (downgradeToH1 sni req)
  | .refused => .error .badGateway
  | .pooled =>
      match route with
      | .tunnel _ => .error .badGateway
      | .localTo target => poolSend target (downgradeToH1 sni req)

theorem requestOverStream_eq (route : Route) (sni : Text) (req : HttpRequest) :
    requestOverStream sni req = requestBy route sni req (req.view.ownExchange) := by
  rw [requestOverStream, Request.ownExchange]
  split_ifs <;> rfl

/-- The way is that of the exchange. -/
theorem requestOverRoute_eq (route : Route) (sni : Text) (req : HttpRequest) :
    requestOverRoute route sni req = requestBy route sni req (req.view.exchange route) := by
  cases route with
  | tunnel entry => exact requestOverStream_eq _ sni req
  | localTo target =>
      rw [requestOverRoute, Request.exchange]
      split_ifs
      · exact requestOverStream_eq _ sni req
      · rfl

theorem mem_serveRequest_exchange {client : Client} {r : ProxiedRequest} {d d' : Destination}
    {c : Client} {e : Exchange} (h : .forward (.http c e) d ∈ serveRequest client r d') :
    e = r.request.ownExchange := by
  rw [serveRequest] at h
  rw [Request.ownExchange]
  split_ifs at h ⊢
  · exact (Path.http.inj (mem_exchangeWith h).1).2
  · exact (Path.http.inj (mem_exchangeWith h).1).2
  · simp at h
    exact h.1.2
  · exact (Path.http.inj (mem_exchangeWith h).1).2

/-- The exchange of a request that the listener forwards is the one chosen for it on the route that its
lookup found. -/
theorem mem_proxy_exchange {sni : Text} {peer : SocketAddr} {client c : Client} {r : ProxiedRequest}
    {d : Destination} {e : Exchange} (h : .forward (.http c e) d ∈ proxy sni peer client r) :
    ∃ route, r.seen.find sni = some route ∧ e = r.request.exchange route := by
  rw [proxy] at h
  split at h
  · next entry hfind =>
      refine ⟨_, hfind, ?_⟩
      split at h
      · exact mem_serveRequest_exchange h
      · simp at h
  · next target hfind =>
      refine ⟨_, hfind, ?_⟩
      rw [Request.exchange]
      split_ifs at h ⊢
      · exact mem_serveRequest_exchange h
      · simp at h
      · exact (Path.http.inj (mem_exchangeWith h).1).2
  · simp at h

/-! ### The headers after the address is set -/

/-- An address is a header value. -/
theorem headerValue_address (ip : IpAddr) : headerValue ip.toText = some (utf8 ip.toText) := by
  have hall : (':' :: '.' :: IpAddr.hexDigits).all (fun c =>
      (String.utf8EncodeChar c).all fun b => 32 ≤ b && b ≠ 127 || b = 9) = true := by decide
  have hchar : ∀ c ∈ ':' :: '.' :: IpAddr.hexDigits, ∀ b ∈ String.utf8EncodeChar c,
      (32 ≤ b && b ≠ 127 || b = 9) = true :=
    fun c hc => List.all_eq_true.mp (List.all_eq_true.mp hall c hc)
  rw [headerValue, if_pos]
  rw [List.all_eq_true]
  intro b hb
  obtain ⟨c, hc, hb⟩ := List.mem_flatMap.mp hb
  refine hchar c ?_ b hb
  rw [List.mem_cons, List.mem_cons]
  exact IpAddr.mem_toText hc

section

variable {parseIp : Text → Option IpAddr} {headers : HeaderMap} {peer : SocketAddr} {client : Client}

/-- What `set_client_address` makes of any headers. -/
theorem exists_setClientAddress :
    ∃ headers', setClientAddress parseIp headers peer client = some headers' ∧
      (∀ name ∈ [xRealIp, xForwardedFor], headers'.getAll name =
        [utf8 ((forwardedAddress parseIp headers client).getD peer.ip).toCanonical.toText]) ∧
      (forwardedAddress parseIp headers client = none → headers'.getAll cfConnectingIp = []) ∧
      ∀ name, name ∉ [xRealIp, xForwardedFor, cfConnectingIp] →
        headers'.getAll name = headers.getAll name := by
  have hne₁ : xForwardedFor ≠ xRealIp := by decide
  have hne₂ : cfConnectingIp ≠ xRealIp := by decide
  have hne₃ : cfConnectingIp ≠ xForwardedFor := by decide
  rw [setClientAddress, headerValue_address, Option.map_some]
  refine ⟨_, rfl, ?_, ?_, ?_⟩
  · intro name hname
    rw [List.mem_cons, List.mem_singleton] at hname
    rcases hname with rfl | rfl
    · rw [HeaderMap.getAll_insert_self]
    · rw [HeaderMap.getAll_insert_of_ne _ _ hne₁, HeaderMap.getAll_insert_self]
  · intro hnone
    rw [HeaderMap.getAll_insert_of_ne _ _ hne₂, HeaderMap.getAll_insert_of_ne _ _ hne₃, hnone]
    exact HeaderMap.getAll_remove_self _ _
  · intro name hname
    simp only [List.mem_cons, List.not_mem_nil, or_false, not_or] at hname
    rw [HeaderMap.getAll_insert_of_ne _ _ hname.1, HeaderMap.getAll_insert_of_ne _ _ hname.2.1]
    split_ifs
    · exact HeaderMap.getAll_remove_of_ne _ hname.2.2
    · rfl

end

section

variable {sni : Text} {req sent : HttpRequest} {route : Route}

theorem getAll_downgradeToH1 {name : Text} (hname : name ≠ hostHeader) :
    (downgradeToH1 sni req).headers.getAll name = req.headers.getAll name := by
  rw [downgradeToH1]
  dsimp only
  cases headerValue (requestAuthority sni req) with
  | none => rfl
  | some value => exact HeaderMap.getAll_insert_of_ne _ _ hname

theorem getAll_poolSend {target : UpstreamTarget} {name : Text} (h : poolSend target req = .ok sent) :
    sent.headers.getAll name = req.headers.getAll name := by
  rw [poolSend] at h
  split at h
  · rw [← Except.ok.inj h]
  · simp at h

/-- All headers but `Host` are those of the request, unless it is a WebSocket in HTTP/2. -/
theorem getAll_requestBy {e : Exchange} (he : e ≠ .wsBridge)
    (h : requestBy route sni req e = .ok sent) {name : Text} (hname : name ≠ hostHeader) :
    sent.headers.getAll name = req.headers.getAll name := by
  cases e with
  | wsBridge => exact absurd rfl he
  | h1Upgrade => rw [← Except.ok.inj h, h1Upgrade]
  | h1Roundtrip =>
      rw [← Except.ok.inj h]
      exact getAll_downgradeToH1 hname
  | refused => simp [requestBy] at h
  | pooled =>
      cases route with
      | tunnel entry => simp [requestBy] at h
      | localTo target => rw [getAll_poolSend h, getAll_downgradeToH1 hname]

/-- Only `ws_bridge` indexes the headers. -/
theorem requestBy_ne_indexPanic {e : Exchange} (he : e ≠ .wsBridge) :
    requestBy route sni req e ≠ .error .indexPanic := by
  cases e with
  | wsBridge => exact absurd rfl he
  | h1Upgrade => simp [requestBy]
  | h1Roundtrip => simp [requestBy]
  | refused => simp [requestBy]
  | pooled =>
      cases route with
      | tunnel entry => simp [requestBy]
      | localTo target =>
          rw [requestBy, poolSend]
          split <;> simp

/-- The subprotocol is none of the other headers of a handshake. -/
theorem getAll_wsHeaders {host realIp forwardedFor : List UInt8} {protocol : Option (List UInt8)}
    {name : Text} (hname : name ≠ secWebsocketProtocol) :
    (wsHeaders host realIp forwardedFor protocol).getAll name =
      (wsHeaders host realIp forwardedFor none).getAll name := by
  cases protocol with
  | none => rfl
  | some value => exact HeaderMap.getAll_append_of_ne _ _ hname

/-- The request of `ws_bridge` takes its addresses from headers that are there. -/
theorem wsBridge_headers {address : List UInt8} (hreal : req.headers.getAll xRealIp = [address])
    (hforwarded : req.headers.getAll xForwardedFor = [address]) :
    wsBridge sni req ≠ .error .indexPanic ∧
      ∀ sent, wsBridge sni req = .ok sent →
        sent.headers.getAll xRealIp = [address] ∧ sent.headers.getAll xForwardedFor = [address] ∧
          sent.headers.getAll cfConnectingIp = [] := by
  rw [wsBridge, HeaderMap.get, hreal, HeaderMap.get, hforwarded]
  dsimp only [List.head?_cons]
  split
  · refine ⟨by simp, ?_⟩
    rintro sent h
    rw [← Except.ok.inj h]
    exact ⟨(getAll_wsHeaders (by decide)).trans rfl, (getAll_wsHeaders (by decide)).trans rfl,
      (getAll_wsHeaders (by decide)).trans rfl⟩
  · simp

end

section

variable {parseIp : Text → Option IpAddr} {headers : HeaderMap} {client : Client} {ip : IpAddr}

theorem forwardedAddress_eq_some (h : forwardedAddress parseIp headers client = some ip) :
    client = .proxy ∧ ∃ value text, (headers.getAll cfConnectingIp).head? = some value ∧
      headerText value = some text ∧ parseIp (trim text) = some ip := by
  cases client with
  | direct => simp [forwardedAddress] at h
  | proxy =>
      obtain ⟨value, hvalue, h⟩ := Option.bind_eq_some_iff.mp h
      obtain ⟨text, htext, h⟩ := Option.bind_eq_some_iff.mp h
      exact ⟨rfl, value, text, hvalue, htext, h⟩

theorem forwardedAddress_eq_none (h : forwardedAddress parseIp headers client = none) :
    client = .direct ∨ ∀ value text, (headers.getAll cfConnectingIp).head? = some value →
      headerText value = some text → parseIp (trim text) = none := by
  cases client with
  | direct => exact .inl rfl
  | proxy =>
      refine .inr fun value text hvalue htext => ?_
      simpa [forwardedAddress, HeaderMap.get, hvalue, htext] using h

end

/-- The two headers of the request handed to a backend, by the address that a trusted proxy gives. -/
theorem getAll_proxyRequest (parseIp : Text → Option IpAddr) (route : Route) (sni : Text)
    (peer : SocketAddr) (client : Client) (req : HttpRequest) :
    proxyRequest parseIp route sni peer client req ≠ .error .indexPanic ∧
      ∀ sent, proxyRequest parseIp route sni peer client req = .ok sent →
        (∀ name ∈ [xRealIp, xForwardedFor], sent.headers.getAll name =
          [utf8 ((forwardedAddress parseIp req.headers client).getD peer.ip).toCanonical.toText]) ∧
        (forwardedAddress parseIp req.headers client = none →
          sent.headers.getAll cfConnectingIp = []) := by
  obtain ⟨headers, hset, haddress, hcf, -⟩ :=
    @exists_setClientAddress parseIp req.headers peer client
  rw [proxyRequest, hset]
  dsimp only
  rw [requestOverRoute_eq]
  by_cases he : (HttpRequest.view { req with headers }).exchange route = .wsBridge
  · rw [he]
    obtain ⟨hindex, hsent⟩ := @wsBridge_headers sni { req with headers } _
      (haddress xRealIp (by simp)) (haddress xForwardedFor (by simp))
    refine ⟨hindex, fun sent h => ?_⟩
    obtain ⟨hreal, hforwarded, hno⟩ := hsent sent h
    refine ⟨?_, fun _ => hno⟩
    simpa using ⟨hreal, hforwarded⟩
  · refine ⟨requestBy_ne_indexPanic he, fun sent h => ⟨fun name hname => ?_, fun hnone => ?_⟩⟩
    · have hhost : name ≠ hostHeader := by
        rintro rfl
        revert hname
        decide
      rw [getAll_requestBy he h hhost]
      exact haddress name hname
    · rw [getAll_requestBy he h (by decide)]
      exact hcf hnone

/-- **No client-forged address reaches a backend.**  Whatever the headers of a request, the route and
the way it takes, the request handed to the backend has one `X-Real-IP` and one `X-Forwarded-For`, both
with the text of one address.  This is what a trusted proxy has put into its first `CF-Connecting-IP`, if
that is an address; otherwise, and always for any other client, it is that of the peer, and then there is no
`CF-Connecting-IP`. -/
theorem client_address_set (parseIp : Text → Option IpAddr) (route : Route) (sni : Text)
    (peer : SocketAddr) (client : Client) (req : HttpRequest) :
    proxyRequest parseIp route sni peer client req ≠ .error .indexPanic ∧
      ∀ sent, proxyRequest parseIp route sni peer client req = .ok sent →
        ∃ ip : IpAddr,
          (∀ name ∈ [xRealIp, xForwardedFor], sent.headers.getAll name = [utf8 ip.toCanonical.toText]) ∧
          ((client = .proxy ∧ ∃ value text, (req.headers.getAll cfConnectingIp).head? = some value ∧
              headerText value = some text ∧ parseIp (trim text) = some ip) ∨
            ((client = .direct ∨ ∀ value text, (req.headers.getAll cfConnectingIp).head? = some value →
                headerText value = some text → parseIp (trim text) = none) ∧
              ip = peer.ip ∧ sent.headers.getAll cfConnectingIp = [])) := by
  obtain ⟨hindex, hsent⟩ := getAll_proxyRequest parseIp route sni peer client req
  refine ⟨hindex, fun sent h => ?_⟩
  obtain ⟨hnames, hcf⟩ := hsent sent h
  cases hforwarded : forwardedAddress parseIp req.headers client with
  | some ip =>
      rw [hforwarded, Option.getD_some] at hnames
      exact ⟨ip, hnames, .inl (forwardedAddress_eq_some hforwarded)⟩
  | none =>
      rw [hforwarded, Option.getD_none] at hnames
      exact ⟨peer.ip, hnames, .inr ⟨forwardedAddress_eq_none hforwarded, rfl, hcf hforwarded⟩⟩

/-- A request with addresses of its own making. -/
def HttpRequest.forged : HttpRequest where
  method := "GET".toList
  uri := .ofPath ['/'] (List.cons_ne_nil _ _) rfl
  version := .http11
  headers := ⟨[(xRealIp, utf8 "10.0.0.1".toList), (upgradeHeader, utf8 "websocket".toList),
    (cfConnectingIp, utf8 " 203.0.113.9 ".toList), (xRealIp, utf8 "10.0.0.3".toList)]⟩
  protocol := none
  body := []

/-- One request from two kinds of clients.  From the proxy it is taken at its word, and from any other client
the address is that of the peer. -/
theorem client_address_set_forged :
    (∃ sent, proxyRequest IpAddr.parse (.localTo (.tcp (.v4 127 0 0 1 80))) [] (.v4 192 0 2 7 50000) .direct
          .forged = .ok sent ∧
        sent.headers.getAll xRealIp = [utf8 "192.0.2.7".toList] ∧ sent.headers.getAll cfConnectingIp = []) ∧
      ∃ sent, proxyRequest IpAddr.parse (.localTo (.tcp (.v4 127 0 0 1 80))) [] (.v4 192 0 2 7 50000) .proxy
          .forged = .ok sent ∧
        sent.headers.getAll xRealIp = [utf8 "203.0.113.9".toList] := by
  have hset := fun client => (client_address_set IpAddr.parse (.localTo (.tcp (.v4 127 0 0 1 80))) []
    (.v4 192 0 2 7 50000) client .forged).2
  have hgiven : (HttpRequest.forged.headers.getAll cfConnectingIp).head? = some (utf8 " 203.0.113.9 ".toList) ∧
      headerText (utf8 " 203.0.113.9 ".toList) = some " 203.0.113.9 ".toList ∧
      IpAddr.parse (trim " 203.0.113.9 ".toList) = some (.v4 203 0 113 9) := by decide +kernel
  refine ⟨⟨_, rfl, ?_⟩, ⟨_, rfl, ?_⟩⟩
  · obtain ⟨ip, hnames, ⟨hproxy, -⟩ | ⟨-, rfl, hcf⟩⟩ := hset .direct _ rfl
    · cases hproxy
    · exact ⟨hnames xRealIp (by decide), hcf⟩
  · obtain ⟨ip, hnames, ⟨-, value, text, hvalue, htext, hparse⟩ | ⟨hdirect | hnone, -⟩⟩ := hset .proxy _ rfl
    · obtain rfl := Option.some.inj (hvalue.symm.trans hgiven.1)
      obtain rfl := Option.some.inj (htext.symm.trans hgiven.2.1)
      obtain rfl := Option.some.inj (hparse.symm.trans hgiven.2.2)
      exact hnames xRealIp (by decide)
    · cases hdirect
    · rw [hnone _ _ hgiven.1 hgiven.2.1] at hgiven
      cases hgiven.2.2

end Tuyau
